import PolicyDialects.Proofs.Binary64.RoundTrip
import PolicyDialects.Proofs.Cel.Tokens

/-!
# Literals of CEL texts

The lexemes of numbers and quoted texts, and the values that they have.

Results:

* `leads_integer`, `leads_float`, `leads_string`: the literal is one lexeme, if
  what follows it does not go on with it.
* `literalValue?_integer`, `literalValue?_float`, `literalValue?_string`: its
  value is what was written.
-/

namespace PolicyDialects.Cel

open Text

/-- The text does not go on with the literal before it. -/
structure EndsLiteral (rest : List Char) : Prop where
  stops : Stops (fun c => isIdentPart c || isQuote c || c == '.') rest
  unsigned : ∀ u cs, rest = ' ' :: u :: cs → u ≠ 'u' ∧ u ≠ 'U'

theorem EndsLiteral.endsName {rest : List Char} (h : EndsLiteral rest) : EndsName rest :=
  h.stops.mono fun c hc => by simp_all

theorem isIdentPart_of_isDigit {c : Char} (h : isDigit c = true) : isIdentPart c = true := by
  simp [isIdentPart, h]

/-! ## Numbers -/

section

variable {negative : Bool} {digits tail : List Char}

/-- Digits after an optional minus sign, with a tail that starts with none. -/
structure IsNumberText (digits tail : List Char) : Prop where
  ne_nil : digits ≠ []
  allDigits : ∀ c ∈ digits, isDigit c = true
  stops : Stops isDigit tail

theorem IsNumberText.exists_cons (h : IsNumberText digits tail) :
    ∃ d ds, digits = d :: ds ∧ d ≠ '-' ∧ d ≠ '+' := by
  obtain ⟨d, ds, hd⟩ := List.exists_cons_of_ne_nil h.ne_nil
  have hdigit := h.allDigits d (by simp [hd])
  exact ⟨d, ds, hd, ne_of_isDigit hdigit (by decide), ne_of_isDigit hdigit (by decide)⟩

theorem minusLength_signed (h : IsNumberText digits tail) :
    minusLength (Binary64.signed negative digits ++ tail) = negative.toNat := by
  cases negative with
  | true => rfl
  | false =>
    obtain ⟨d, ds, rfl, hminus, -⟩ := h.exists_cons
    exact minusLength_of_ne hminus _

theorem signLength_signed (h : IsNumberText digits tail) :
    signLength (Binary64.signed negative digits ++ tail) = negative.toNat := by
  cases negative with
  | true => rfl
  | false =>
    obtain ⟨d, ds, rfl, hminus, hplus⟩ := h.exists_cons
    exact signLength_of_ne hminus hplus _

theorem drop_signed (negative : Bool) (digits tail : List Char) :
    (Binary64.signed negative digits ++ tail).drop negative.toNat = digits ++ tail := by
  cases negative <;> rfl

theorem drop_signed_digits (negative : Bool) (digits tail : List Char) :
    (Binary64.signed negative digits ++ tail).drop (negative.toNat + digits.length) = tail := by
  rw [← List.drop_drop, drop_signed, List.drop_left]

theorem intLength_signed (h : IsNumberText digits tail) :
    intLength (Binary64.signed negative digits ++ tail) = negative.toNat + digits.length := by
  have hne : digits.length ≠ 0 := by simpa using h.ne_nil
  have hrun := run_append h.allDigits h.stops
  simp only [intLength, minusLength_signed h, drop_signed, hrun, if_neg hne]

/-- No number here goes on with an `x`. -/
theorem hexLength_signed (h : IsNumberText digits tail)
    (hx : Stops (fun c => c == 'x' || c == 'X') tail) :
    hexLength (Binary64.signed negative digits ++ tail) = 0 := by
  simp only [hexLength, minusLength_signed h, drop_signed]
  split
  · rename_i x rest heq
    have hne : ¬(x = 'x' ∨ x = 'X') := by
      obtain ⟨d, ds, rfl, -⟩ := h.exists_cons
      have hrest := (List.cons.inj heq).2
      cases ds with
      | nil =>
        obtain rfl : tail = x :: rest := hrest
        simpa using hx x rfl
      | cons y ys =>
        obtain ⟨rfl, -⟩ := List.cons.inj hrest
        have hdigit := h.allDigits y (by simp)
        rintro (rfl | rfl)
        · cases hdigit
        · cases hdigit
    simp [hne]
  · rfl

/-- Where a number starts, only the shapes of numbers have a length. -/
theorem shapes_signed (h : IsNumberText digits tail)
    (hx : Stops (fun c => c == 'x' || c == 'X') tail) :
    shapes (Binary64.signed negative digits ++ tail) =
      [ (.literal .int, negative.toNat + digits.length),
        (.literal .hex, 0),
        (.literal .unsigned, unsignedLength (negative.toNat + digits.length)
          (Binary64.signed negative digits ++ tail)),
        (.literal .unsigned, 0),
        (.literal .float, floatLength (Binary64.signed negative digits ++ tail)),
        (.literal .string, 0),
        (.literal .rawString, 0),
        (.literal .bytes, 0),
        (.ident, 0) ] := by
  have hhead : ∃ c cs, Binary64.signed negative digits ++ tail = c :: cs ∧
      (isDigit c || c == '-') = true := by
    obtain ⟨d, ds, rfl, -⟩ := h.exists_cons
    cases negative with
    | true => exact ⟨'-', _, rfl, by decide⟩
    | false => exact ⟨d, _, rfl, by simp [h.allDigits d List.mem_cons_self]⟩
  obtain ⟨c, cs, hcs, hc⟩ := hhead
  have hne : ∀ d, (isDigit d || d == '-') = false → c ≠ d := by
    rintro d hd rfl
    rw [hc] at hd
    cases hd
  have hident : isIdentStart c = false := by
    have hascii : c.toNat < 128 := by
      rcases Bool.or_eq_true _ _ ▸ hc with hc | hc
      · exact toNat_lt_of_isDigit hc
      · rw [eq_of_beq hc]; decide
    revert hc
    exact of_ascii hascii (by decide)
  unfold shapes
  rw [intLength_signed h, hexLength_signed h hx, unsignedLength_zero, hcs,
    quotedLength_of_head (hne _ (by decide)) (hne _ (by decide)),
    letteredLength_of_head (hne _ (by decide)) (hne _ (by decide)),
    letteredLength_of_head (hne _ (by decide)) (hne _ (by decide)), identLength_of_head hident]

/-- A minus sign before a number is no mark that is as long as the number. -/
theorem symbolAt?_signed (h : IsNumberText digits tail) {s : Symbol}
    (hs : symbolAt? (Binary64.signed negative digits ++ tail) = some s) :
    s.spelling.length < negative.toNat + digits.length := by
  obtain ⟨d, ds, rfl, hminus, -⟩ := h.exists_cons
  cases negative with
  | true =>
    have hsymbol : symbolAt? ('-' :: d :: (ds ++ tail)) = some .minus := by
      simp [symbolAt?, Symbol.marks, Symbol.spelling, List.isPrefixOf, hminus.symm]
    obtain rfl : Symbol.minus = s := Option.some.inj (hsymbol.symm.trans hs)
    simp [Symbol.spelling]
  | false =>
    have hmark : startsNoMark d = true := by
      have hdigit := h.allDigits d List.mem_cons_self
      have hascii := toNat_lt_of_isDigit hdigit
      revert hdigit
      exact of_ascii hascii (by decide)
    have hsymbol : symbolAt? (d :: (ds ++ tail)) = none := symbolAt?_eq_none hmark _
    rw [show Binary64.signed false (d :: ds) ++ tail = d :: (ds ++ tail) from rfl, hsymbol] at hs
    cases hs

/-- A number is one lexeme of the kind whose shape is the longest. -/
theorem leads_number (h : IsNumberText digits tail) {kind : LiteralKind} {text rest : List Char}
    (htext : Binary64.signed negative digits ++ tail = text ++ rest)
    (hlongest : longest (shapes (text ++ rest)) = (.literal kind, text.length))
    (hlength : negative.toNat + digits.length ≤ text.length) :
    Leads (.literal kind) text rest := by
  have htoken : tokenAt (text ++ rest) = (.literal kind, text.length) := by
    unfold tokenAt
    rw [hlongest]
    cases hsymbol : symbolAt? (text ++ rest) with
    | none => rfl
    | some s =>
      have hlt := symbolAt?_signed h (htext ▸ hsymbol)
      have hle : ¬text.length ≤ s.spelling.length := by omega
      simp [hle, Symbol.words]
  obtain ⟨d, ds, rfl, -⟩ := h.exists_cons
  have hdigit := h.allDigits d List.mem_cons_self
  cases text with
  | nil =>
    simp at hlength
  | cons c cs =>
    have hc : (isDigit c || c == '-') = true := by
      cases negative with
      | true => rw [← (List.cons.inj htext).1]; decide
      | false => rw [← (List.cons.inj htext).1]; simp [hdigit]
    have hclass : isBlank c = false ∧ c ≠ '/' := by
      have hascii : c.toNat < 128 := by
        rcases Bool.or_eq_true _ _ ▸ hc with hc | hc
        · exact toNat_lt_of_isDigit hc
        · rw [eq_of_beq hc]; decide
      revert hc
      exact of_ascii hascii (by decide)
    exact ⟨⟨c, cs, rfl, hclass⟩, htoken⟩

end

theorem unsignedLength_of_drop {n : Nat} {cs rest : List Char} (hdrop : cs.drop n = rest)
    (h : ∀ u cs, rest = ' ' :: u :: cs → u ≠ 'u' ∧ u ≠ 'U') : unsignedLength n cs = 0 := by
  unfold unsignedLength
  rw [hdrop]
  split
  · rename_i u cs'
    simp [h u cs' rfl]
  · rfl

theorem intNumeral_eq_signed (i : Int) :
    intNumeral i = Binary64.signed (decide (i < 0)) (numeral i.natAbs) := by
  cases i with
  | ofNat n => rfl
  | negSucc n =>
    have hneg : Int.negSucc n < 0 := Int.negSucc_lt_zero n
    simp [intNumeral, Binary64.signed, hneg]

theorem isNumberText_numeral {rest : List Char} (n : Nat) (h : Stops isDigit rest) :
    IsNumberText (numeral n) rest :=
  ⟨numeral_ne_nil n, fun _ hc => isDigit_of_mem_numeral hc, h⟩

theorem EndsLiteral.stops_isDigit {rest : List Char} (h : EndsLiteral rest) :
    Stops isDigit rest :=
  h.stops.mono fun c hc => by simp [isIdentPart_of_isDigit hc]

theorem EndsLiteral.stops_letter {rest : List Char} (h : EndsLiteral rest) {a b : Char}
    (ha : isIdentPart a = true) (hb : isIdentPart b = true) :
    Stops (fun c => c == a || c == b) rest :=
  h.stops.mono fun c hc => by
    simp only [Bool.or_eq_true, beq_iff_eq] at hc
    rcases hc with rfl | rfl
    · simp [ha]
    · simp [hb]

theorem exponentLength_of_endsLiteral {rest : List Char} (h : EndsLiteral rest) :
    exponentLength rest = 0 := by
  cases rest with
  | nil => rfl
  | cons c cs =>
    have := h.stops_letter (a := 'e') (b := 'E') (by decide) (by decide) c rfl
    simp only [Bool.or_eq_false_iff, beq_eq_false_iff_ne] at this
    simp [exponentLength, this.1, this.2]

/-- An integer is one lexeme. -/
theorem leads_integer (i : Int) {rest : List Char} (hrest : EndsLiteral rest) :
    Leads (.literal .int) (intNumeral i) rest := by
  have hnumber := isNumberText_numeral i.natAbs hrest.stops_isDigit
  have hlength : (intNumeral i).length =
      (decide (i < 0)).toNat + (numeral i.natAbs).length := by
    rw [intNumeral_eq_signed]
    cases decide (i < 0) <;> simp [Binary64.signed, Nat.add_comm]
  refine leads_number hnumber (by rw [intNumeral_eq_signed]) ?_ (Nat.le_of_eq hlength.symm)
  have hfloat : floatLength (Binary64.signed (decide (i < 0)) (numeral i.natAbs) ++ rest) = 0 := by
    simp only [floatLength, signLength_signed hnumber, drop_signed, drop_signed_digits,
      run_append hnumber.allDigits hnumber.stops]
    split
    · rename_i cs
      have := hrest.stops '.' rfl
      simp at this
    · simp [exponentLength_of_endsLiteral hrest]
  have hunsigned := unsignedLength_of_drop
    (drop_signed_digits (decide (i < 0)) (numeral i.natAbs) rest) hrest.unsigned
  rw [hlength, intNumeral_eq_signed, shapes_signed hnumber (hrest.stops_letter (by decide)
    (by decide)), hfloat, hunsigned]
  have hpos : 0 < (numeral i.natAbs).length := List.length_pos_iff.mpr (numeral_ne_nil i.natAbs)
  refine longest_append_cons [] (by simp) fun s hs => ?_
  simp only [List.mem_cons, List.not_mem_nil, or_false] at hs
  rcases hs with rfl | rfl | rfl | rfl | rfl | rfl | rfl | rfl <;> dsimp only <;> omega

/-- The exponent of a decimal text is read to its end. -/
theorem exponentLength_powerChars (d : Binary64.Decimal) {rest : List Char}
    (hrest : EndsLiteral rest) :
    exponentLength (d.powerChars ++ rest) = d.powerChars.length := by
  unfold Binary64.Decimal.powerChars
  cases d.power with
  | none => exact exponentLength_of_endsLiteral hrest
  | some p =>
    have hnumber := isNumberText_numeral p.natAbs hrest.stops_isDigit
    have hne : (numeral p.natAbs).length ≠ 0 := by simpa using numeral_ne_nil p.natAbs
    simp only [List.cons_append, exponentLength, intNumeral_eq_signed, signLength_signed hnumber,
      drop_signed, run_append hnumber.allDigits hnumber.stops]
    rw [if_pos ⟨.inl trivial, hne⟩]
    cases decide (p < 0) <;> simp [Binary64.signed] <;> omega

theorem stops_powerChars_append (d : Binary64.Decimal) {rest : List Char}
    (hrest : EndsLiteral rest) : Stops isDigit (d.powerChars ++ rest) := by
  unfold Binary64.Decimal.powerChars
  cases d.power with
  | none => exact hrest.stops_isDigit
  | some p => exact stops_cons (by decide) _

/-- What stands behind the digits of a decimal text is a point or an `e`. -/
theorem exists_decimal_tail (d : Binary64.Decimal) (rest : List Char) :
    ∃ c cs, d.fractionChars ++ (d.powerChars ++ rest) = c :: cs ∧ (c = '.' ∨ c = 'e') := by
  cases hf : d.fraction with
  | cons x xs =>
    refine ⟨'.', (x :: xs) ++ (d.powerChars ++ rest), ?_, .inl rfl⟩
    simp only [Binary64.Decimal.fractionChars, hf, List.cons_append]
  | nil =>
    obtain ⟨p, hp⟩ := Option.isSome_iff_exists.mp (d.marked.resolve_left (by simp [hf]))
    refine ⟨'e', intNumeral p ++ rest, ?_, .inr rfl⟩
    simp only [Binary64.Decimal.fractionChars, hf, Binary64.Decimal.powerChars, hp,
      List.nil_append, List.cons_append]

theorem isNumberText_whole (d : Binary64.Decimal) (rest : List Char) :
    IsNumberText d.whole (d.fractionChars ++ (d.powerChars ++ rest)) := by
  obtain ⟨c, cs, htail, hc⟩ := exists_decimal_tail d rest
  refine ⟨d.whole_ne_nil, d.isDigit_whole, ?_⟩
  rw [htail]
  rcases hc with rfl | rfl <;> exact stops_cons (by decide) _

theorem length_signed_chars (negative : Bool) (d : Binary64.Decimal) :
    (Binary64.signed negative d.chars).length = negative.toNat + d.whole.length +
      (d.fractionChars.length + d.powerChars.length) := by
  cases negative with
  | false => simp [Binary64.signed, Binary64.Decimal.chars]
  | true => simp [Binary64.signed, Binary64.Decimal.chars]; omega

/-- A decimal text is a float to its end. -/
theorem floatLength_signed (negative : Bool) (d : Binary64.Decimal) {rest : List Char}
    (hrest : EndsLiteral rest) :
    floatLength (Binary64.signed negative d.whole ++ (d.fractionChars ++ (d.powerChars ++ rest))) =
      (Binary64.signed negative d.chars).length := by
  have hnumber := isNumberText_whole d rest
  have hexponent := exponentLength_powerChars d hrest
  have hwhole : d.whole.length ≠ 0 := by simpa using d.whole_ne_nil
  rw [length_signed_chars]
  simp only [floatLength, signLength_signed hnumber, drop_signed, drop_signed_digits,
    run_append hnumber.allDigits hnumber.stops]
  cases hf : d.fraction with
  | nil =>
    have hne := Binary64.Decimal.powerChars_ne_nil hf
    have hfraction : d.fractionChars = [] := by simp only [Binary64.Decimal.fractionChars, hf]
    rw [hfraction, List.nil_append, List.length_nil, Nat.zero_add]
    split
    · rename_i heq
      obtain ⟨c, cs, hpower⟩ := List.exists_cons_of_ne_nil hne
      have hc : c = 'e' := by
        unfold Binary64.Decimal.powerChars at hpower
        cases hp : d.power with
        | none => rw [hp] at hpower; cases hpower
        | some p => rw [hp] at hpower; exact (List.cons.inj hpower).1.symm
      rw [hpower, hc] at heq
      cases heq
    · have hlength : d.powerChars.length ≠ 0 := by simpa using hne
      rw [hexponent, if_neg (by omega)]
  | cons x xs =>
    have hfraction : d.fractionChars = '.' :: x :: xs := by
      simp only [Binary64.Decimal.fractionChars, hf]
    have hrun : run isDigit ((x :: xs) ++ (d.powerChars ++ rest)) = (x :: xs).length :=
      run_append (by rw [← hf]; exact d.isDigit_fraction) (stops_powerChars_append d hrest)
    rw [hfraction, List.cons_append]
    simp only [hrun]
    rw [List.drop_left, hexponent, if_neg (by simp), List.length_cons (a := '.')]
    omega

/-- A finite double is one lexeme. -/
theorem leads_float {x : Binary64} (hx : x.IsFinite) {rest : List Char}
    (hrest : EndsLiteral rest) : Leads (.literal .float) x.chars rest := by
  cases x with
  | nan => exact hx.elim
  | infinite _ => exact hx.elim
  | finite negative units fits =>
    obtain ⟨d, hd, -⟩ := Binary64.exists_decimal_of_finite negative fits
    rw [hd]
    have hnumber := isNumberText_whole d rest
    have htext : Binary64.signed negative d.whole ++ (d.fractionChars ++ (d.powerChars ++ rest)) =
        Binary64.signed negative d.chars ++ rest := by
      cases negative <;> simp [Binary64.signed, Binary64.Decimal.chars]
    have hlength := length_signed_chars negative d
    have hmarked : 0 < d.fractionChars.length + d.powerChars.length := by
      obtain ⟨c, cs, htail, -⟩ := exists_decimal_tail d []
      have := congrArg List.length htail
      simp only [List.append_nil, List.length_append, List.length_cons] at this
      omega
    obtain ⟨c, cs, htail, hc⟩ := exists_decimal_tail d rest
    have hx : Stops (fun c => c == 'x' || c == 'X')
        (d.fractionChars ++ (d.powerChars ++ rest)) := by
      rw [htail]
      rcases hc with rfl | rfl <;> exact stops_cons (by decide) _
    have hunsigned := unsignedLength_of_drop (drop_signed_digits negative d.whole
      (d.fractionChars ++ (d.powerChars ++ rest))) (fun u us heq => by
        rw [htail] at heq
        rcases hc with rfl | rfl <;> cases heq)
    refine leads_number hnumber htext ?_ (by omega)
    rw [← htext, shapes_signed hnumber hx, floatLength_signed negative d hrest, hunsigned]
    refine longest_append_cons [(.literal .int, negative.toNat + d.whole.length), (.literal .hex, 0),
      (.literal .unsigned, 0), (.literal .unsigned, 0)] (fun s hs => ?_) fun s hs => ?_
    · simp only [List.mem_cons, List.not_mem_nil, or_false] at hs
      rcases hs with rfl | rfl | rfl | rfl <;> dsimp only <;> omega
    · simp only [List.mem_cons, List.not_mem_nil, or_false] at hs
      rcases hs with rfl | rfl | rfl | rfl <;> dsimp only <;> omega

/-! ## Quoted texts -/

theorem stringLength_cons {q c : Char} {cs : List Char} {n : Nat} (hq : c ≠ q) (hb : c ≠ '\\')
    (h : stringLength q cs = n + 1) : stringLength q (c :: cs) = n + 2 := by
  rw [stringLength]
  · rw [if_neg hq, h]
  · exact fun h => absurd h hb
  · exact fun _ _ h => absurd h hb

theorem stringLength_escape {q c : Char} {cs : List Char} {n : Nat} (hc : c ≠ '\n')
    (h : stringLength q cs = n + 1) : stringLength q ('\\' :: c :: cs) = n + 3 := by
  rw [stringLength, if_neg hc, h]

/-- A quoted text reaches to its closing quote. -/
theorem stringLength_quoteBody (cs rest : List Char) :
    stringLength '"' (quoteBody cs ++ '"' :: rest) = (quoteBody cs).length + 1 := by
  refine quoteBody_induction
    (motive := fun s => stringLength '"' (s ++ '"' :: rest) = s.length + 1) ?_ ?_ ?_ cs
  · rw [List.nil_append, stringLength] <;> simp
  · exact fun hquote hslash ih => stringLength_cons hquote hslash ih
  · exact fun he ih => stringLength_escape he ih

theorem escapedString?_char {q c : Char} (hc : c ≠ '\\') (cs : List Char) :
    escapedString? q (c :: cs) = (escapedString? q cs).map (c :: ·) := by
  rw [escapedString?]
  · rw [if_neg hc]
  · exact fun _ _ h => absurd h hc

theorem escapedString?_simple {q e c : Char} (hq : e ≠ q) (hquotes : ¬(e = '"' ∨ e = '\''))
    (he : simpleEscape? e = some c) (cs : List Char) :
    escapedString? q ('\\' :: e :: cs) = (escapedString? q cs).map (c :: ·) := by
  rw [escapedString?.eq_def]
  simp only [if_neg hq, if_neg hquotes, he]

theorem escapedString?_quote (q : Char) (cs : List Char) :
    escapedString? q ('\\' :: q :: cs) = (escapedString? q cs).map (q :: ·) := by
  rw [escapedString?.eq_def]
  simp only [if_true]

theorem escapedString?_unicode {q a b c d x : Char} (hq : q ≠ 'u')
    (h : (hexNumber? [a, b, c, d] >>= charOfCode?) = some x) (cs : List Char) :
    escapedString? q ('\\' :: 'u' :: a :: b :: c :: d :: cs) =
      (escapedString? q cs).map (x :: ·) := by
  have hsimple : simpleEscape? 'u' = none := by decide
  have hcode : codeLength? 'u' = some 4 := by decide
  rw [escapedString?, if_neg hq.symm, if_neg (by decide), hsimple, hcode]
  simp only [List.length_cons, List.take_succ_cons, List.take_zero, List.drop_succ_cons,
    List.drop_zero, h]
  rw [if_neg (by omega)]

/-- A control character is read back from its number in hexadecimal. -/
theorem hexNumber?_of_isControl {c : Char} (h : isControl c = true) :
    (hexNumber? ['0', '0', hexDigit (c.toNat / 16), hexDigit (c.toNat % 16)] >>= charOfCode?) =
      some c := by
  have hlt := toNat_lt_of_isControl h
  have hzero : hexValue? '0' = some 0 := rfl
  have hcode : 16 * (16 * (16 * (16 * 0 + 0) + 0) + c.toNat / 16) + c.toNat % 16 = c.toNat := by
    omega
  have hnumber : hexNumber? ['0', '0', hexDigit (c.toNat / 16), hexDigit (c.toNat % 16)] =
      some c.toNat := by
    show List.foldlM (fun n c => (hexValue? c).map (16 * n + ·)) 0
      ['0', '0', hexDigit (c.toNat / 16), hexDigit (c.toNat % 16)] = some c.toNat
    simp only [List.foldlM_cons, List.foldlM_nil, hzero, hexValue?_hexDigit (n := c.toNat / 16) (by omega),
      hexValue?_hexDigit (n := c.toNat % 16) (by omega), Option.map_some, Option.bind_eq_bind,
      Option.bind_some, Option.pure_def, hcode]
  rw [hnumber]
  exact charOfCode?_toNat c

/-- A quoted text has its own value. -/
theorem escapedString?_quoteBody (cs : List Char) :
    escapedString? '"' (quoteBody cs) = some cs := by
  induction cs with
  | nil => rw [quoteBody_nil, escapedString?]
  | cons c cs ih =>
    rw [quoteBody_cons]
    rcases quoteChar_cases c with ⟨hq, -, hslash, -⟩ | ⟨e, hq, he⟩ | ⟨hc, hq⟩
    · rw [hq, List.singleton_append, escapedString?_char hslash, ih]
      rfl
    · rw [hq, List.cons_append, List.singleton_append]
      simp only [List.mem_cons, Prod.mk.injEq, List.not_mem_nil, or_false] at he
      rcases he with ⟨rfl, rfl⟩ | he
      · rw [escapedString?_quote, ih]
        rfl
      · have hescape : e ≠ '"' ∧ ¬(e = '"' ∨ e = '\'') ∧ simpleEscape? e = some c := by
          rcases he with ⟨rfl, rfl⟩ | ⟨rfl, rfl⟩ | ⟨rfl, rfl⟩ | ⟨rfl, rfl⟩ <;> decide
        rw [escapedString?_simple hescape.1 hescape.2.1 hescape.2.2, ih]
        rfl
    · rw [hq]
      simp only [List.cons_append, List.nil_append]
      rw [escapedString?_unicode (by decide) (hexNumber?_of_isControl hc), ih]
      rfl

/-- A quoted text is one lexeme, whatever follows it. -/
theorem leads_string (s : String) (rest : List Char) :
    Leads (.literal .string) (quote s).toList rest := by
  have hlength : (quote s).toList.length = (quoteBody s.toList).length + 2 := by
    rw [toList_quote]; simp
  have htext : (quote s).toList ++ rest = '"' :: (quoteBody s.toList ++ '"' :: rest) := by
    rw [toList_quote]; simp
  have hquoted : quotedLength stringLength ('"' :: (quoteBody s.toList ++ '"' :: rest)) =
      (quoteBody s.toList).length + 2 := by
    simp [quotedLength, stringLength_quoteBody]
  have hshapes : longest (shapes ((quote s).toList ++ rest)) =
      (.literal .string, (quote s).toList.length) := by
    rw [htext, hlength]
    unfold shapes
    rw [intLength_of_head (by decide) (by decide), hexLength_of_head (by decide) (by decide),
      unsignedLength_zero, floatLength_of_head (by decide) (by decide) (by decide) (by decide),
      hquoted, letteredLength_of_head (by decide) (by decide),
      letteredLength_of_head (by decide) (by decide), identLength_of_head (by decide)]
    exact longest_append_cons [(.literal .int, 0), (.literal .hex, 0), (.literal .unsigned, 0),
      (.literal .unsigned, 0), (.literal .float, 0)] (by simp) (by simp)
  have htoken : tokenAt ((quote s).toList ++ rest) =
      (.literal .string, (quote s).toList.length) := by
    unfold tokenAt
    rw [hshapes, htext, symbolAt?_eq_none (by decide)]
    simp [Symbol.words]
  refine ⟨⟨'"', quoteBody s.toList ++ ['"'], ?_, by decide, by decide⟩, htoken⟩
  rw [toList_quote]

theorem lexes_integer (i : Int) {rest : List Char} {ps : List Piece} (hrest : EndsLiteral rest)
    (h : Lexes rest ps) : Lexes (intNumeral i ++ rest) ((.literal .int, intNumeral i) :: ps) :=
  lexes_token (leads_integer i hrest) h

theorem lexes_float {x : Binary64} (hx : x.IsFinite) {rest : List Char} {ps : List Piece}
    (hrest : EndsLiteral rest) (h : Lexes rest ps) :
    Lexes (x.chars ++ rest) ((.literal .float, x.chars) :: ps) :=
  lexes_token (leads_float hx hrest) h

theorem lexes_string (s : String) {rest : List Char} {ps : List Piece} (h : Lexes rest ps) :
    Lexes ((quote s).toList ++ rest) ((.literal .string, (quote s).toList) :: ps) :=
  lexes_token (leads_string s rest) h

/-! ## Values -/

theorem literalValue?_integer (i : Int64) :
    literalValue? .int (intNumeral i.toInt) = some (.int i) := by
  rw [literalValue?, int64?_intNumeral]
  rfl

theorem literalValue?_float {x : Binary64} (hx : x.IsFinite) :
    literalValue? .float x.chars = some (.float x) := by
  rw [literalValue?, Binary64.ofText?_chars hx]
  rfl

theorem literalValue?_string (s : String) :
    literalValue? .string (quote s).toList = some (.string s) := by
  have hunquoted : unquoted (quote s).toList = ('"', quoteBody s.toList) := by
    rw [toList_quote, unquoted]
    simp
  rw [literalValue?, hunquoted]
  dsimp only
  rw [escapedString?_quoteBody]
  simp

end PolicyDialects.Cel
