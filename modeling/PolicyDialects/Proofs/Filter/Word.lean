import PolicyDialects.Filter.Grammar
import PolicyDialects.Filter.Token
import PolicyDialects.Proofs.Binary64.RoundTrip

/-!
# Values written as unquoted words

Integers, finite doubles and Booleans are written without quotes. Their words
are classified as what they were, hold no character that ends a word, and are
no keyword of the grammar.

Results:

* `ofWord_text`: the word of such a value has that value.
* `isNumberPart_of_mem_text`, `isDelimiter_of_class`: none of its characters ends
  a word.
* `isReserved_text`, `ofKeyword?_text`: it is no keyword and no operator.
-/

namespace PolicyDialects.Filter

open Text

/-- Values that are written as a word and read back from it. -/
def Value.IsWord : Value → Prop
  | .integer _ => True
  | .float x => x.IsFinite
  | .boolean _ => True
  | .string _ => False
  | .list _ => False

/-! ## Numbers as text -/

/-- Characters in the text of a number. -/
def isNumberPart (c : Char) : Bool := isDigit c || c == '-' || c == '.' || c == 'e'

theorem isNumberPart_of_isDigit {c : Char} (h : isDigit c = true) : isNumberPart c = true := by
  simp [isNumberPart, h]

theorem isNumberPart_of_mem_intNumeral {i : Int} {c : Char} (h : c ∈ intNumeral i) :
    isNumberPart c = true := by
  cases i with
  | ofNat n => exact isNumberPart_of_isDigit (isDigit_of_mem_numeral h)
  | negSucc n =>
    rcases List.mem_cons.mp h with rfl | h
    · decide
    · exact isNumberPart_of_isDigit (isDigit_of_mem_numeral h)

theorem isNumberPart_of_mem_decimal {d : Binary64.Decimal} {c : Char} (h : c ∈ d.chars) :
    isNumberPart c = true := by
  unfold Binary64.Decimal.chars Binary64.Decimal.fractionChars Binary64.Decimal.powerChars at h
  rcases List.mem_append.mp h with h | h
  · exact isNumberPart_of_isDigit (d.isDigit_whole c h)
  rcases List.mem_append.mp h with h | h
  · split at h
    · cases h
    · rename_i hf
      rcases List.mem_cons.mp h with rfl | h
      · decide
      · exact isNumberPart_of_isDigit (d.isDigit_fraction c h)
  · split at h
    · cases h
    · rcases List.mem_cons.mp h with rfl | h
      · decide
      · exact isNumberPart_of_mem_intNumeral h

theorem isNumberPart_of_mem_signed {negative : Bool} {d : Binary64.Decimal} {c : Char}
    (h : c ∈ Binary64.signed negative d.chars) : isNumberPart c = true := by
  cases negative with
  | false => exact isNumberPart_of_mem_decimal h
  | true =>
    rcases List.mem_cons.mp h with rfl | h
    · decide
    · exact isNumberPart_of_mem_decimal h

/-- The text of a number starts with a digit or a minus sign. -/
def StartsNumber (cs : List Char) : Prop := ∃ c rest, cs = c :: rest ∧ (isDigit c || c == '-') = true

theorem startsNumber_intNumeral (i : Int) : StartsNumber (intNumeral i) := by
  cases i with
  | ofNat n =>
    obtain ⟨c, cs, h⟩ := List.exists_cons_of_ne_nil (numeral_ne_nil n)
    exact ⟨c, cs, h, by simp [isDigit_of_mem_numeral (n := n) (c := c) (by simp [h])]⟩
  | negSucc n => exact ⟨'-', numeral (n + 1), rfl, by decide⟩

theorem startsNumber_signed (negative : Bool) (d : Binary64.Decimal) :
    StartsNumber (Binary64.signed negative d.chars) := by
  obtain ⟨c, cs, h, hc⟩ := d.exists_chars_eq_cons
  cases negative with
  | false => exact ⟨c, cs, h, by simp [hc]⟩
  | true => exact ⟨'-', d.chars, rfl, by decide⟩

/-- The start of a number is not the start of a word of letters, in any case. -/
theorem sameFold_of_startsNumber {s word : String} {w : Char} {ws : List Char}
    (h : StartsNumber s.toList) (hword : foldCase word.toList = w :: ws)
    (hw : isLetter w = true) : sameFold s word = false := by
  obtain ⟨c, rest, hs, hc⟩ := h
  have hascii : c.toNat < 128 := by
    rcases Bool.or_eq_true _ _ ▸ hc with hc | hc
    · exact toNat_lt_of_isDigit hc
    · rw [eq_of_beq hc]; decide
  have hlower : c.toLower = c ∧ isLetter c = false := by
    revert hc
    exact of_ascii hascii (by decide)
  have hne : c ≠ w := by
    rintro rfl
    rw [hlower.2] at hw
    cases hw
  unfold sameFold
  rw [hs, hword]
  simp [foldCase, hlower.1, hne]

theorem isReserved_of_startsNumber {s : String} (h : StartsNumber s.toList) :
    isReserved s = false := by
  unfold isReserved isLogicalKeyword
  rw [sameFold_of_startsNumber h (by decide : foldCase "and".toList = 'a' :: ['n', 'd'])
      (by decide),
    sameFold_of_startsNumber h (by decide : foldCase "or".toList = 'o' :: ['r']) (by decide),
    sameFold_of_startsNumber h (by decide : foldCase "not".toList = 'n' :: ['o', 't'])
      (by decide)]
  rfl

theorem exists_foldCase_keyword (op : CompareOperator) :
    ∃ w ws, foldCase op.keyword.toList = w :: ws ∧ isLetter w = true := by
  cases op <;> exact ⟨_, _, rfl, by decide⟩

theorem ofKeyword?_of_startsNumber {s : String} (h : StartsNumber s.toList) :
    CompareOperator.ofKeyword? s = none := by
  unfold CompareOperator.ofKeyword?
  rw [List.find?_eq_none]
  intro op _
  obtain ⟨w, ws, hw, hl⟩ := exists_foldCase_keyword op
  rw [sameFold_of_startsNumber h hw hl]
  simp

/-! ## Classification -/

namespace Value

theorem takeMinus_signed (negative : Bool) (d : Binary64.Decimal) :
    takeMinus (Binary64.signed negative d.chars) = (negative, d.chars) := by
  cases negative with
  | true => rfl
  | false =>
    obtain ⟨c, cs, h, hc⟩ := d.exists_chars_eq_cons
    unfold Binary64.signed
    rw [if_neg (by decide), h]
    unfold takeMinus
    split
    · rename_i heq
      exact absurd (List.cons.inj heq).1 (ne_of_isDigit hc (by decide))
    · rfl

theorem isExponent_powerChars {d : Binary64.Decimal} (h : d.powerChars ≠ []) :
    isExponent d.powerChars = true := by
  unfold Binary64.Decimal.powerChars at h ⊢
  cases hp : d.power with
  | none => rw [hp] at h; exact absurd rfl h
  | some p =>
    unfold isExponent
    dsimp only
    rw [Binary64.takeSign_intNumeral]
    simp [isNumeral_numeral]

/-- A fraction or an exponent keeps a decimal text from being an integer. -/
theorem isIntegerWord_signed (negative : Bool) (d : Binary64.Decimal) :
    isIntegerWord (Binary64.signed negative d.chars) = false := by
  unfold isIntegerWord
  rw [takeMinus_signed, Bool.eq_false_iff]
  intro h
  have hall : ∀ c ∈ d.chars, isDigit c = true :=
    List.all_eq_true.mp (Bool.and_eq_true _ _ ▸ h).2
  have htail : ∀ c ∈ d.fractionChars ++ d.powerChars, isDigit c = true := fun c hc =>
    hall c (List.mem_append_right _ hc)
  unfold Binary64.Decimal.fractionChars at htail
  cases hf : d.fraction with
  | nil =>
    rw [hf] at htail
    have hne := Binary64.Decimal.powerChars_ne_nil hf
    unfold Binary64.Decimal.powerChars at htail hne
    split at hne
    · exact hne rfl
    · rename_i p hp
      rw [hp] at htail
      exact absurd (htail 'e' (by simp)) (by decide)
  | cons c cs =>
    rw [hf] at htail
    exact absurd (htail '.' (by simp)) (by decide)

theorem isFloatWord_signed (negative : Bool) (d : Binary64.Decimal) :
    isFloatWord (Binary64.signed negative d.chars) = true := by
  unfold isFloatWord
  rw [takeMinus_signed]
  dsimp only
  rw [d.takeWhile_chars, d.dropWhile_chars]
  have hwhole : d.whole.isEmpty = false := by simp [d.whole_ne_nil]
  rw [hwhole]
  unfold Binary64.Decimal.fractionChars
  cases hf : d.fraction with
  | nil =>
    have hexp := isExponent_powerChars (Binary64.Decimal.powerChars_ne_nil hf)
    simp only [List.nil_append, Bool.not_false, Bool.true_and]
    split
    · rename_i heq
      rw [heq] at hexp
      exact absurd hexp (by simp [isExponent])
    · exact hexp
  | cons c cs =>
    have hcs : ∀ x ∈ c :: cs, isDigit x = true := by rw [← hf]; exact d.isDigit_fraction
    have htake := takeWhile_append_stops hcs d.stops_powerChars
    have hdrop := dropWhile_append_stops hcs d.stops_powerChars
    simp only [List.cons_append, Bool.not_false, Bool.true_and] at htake hdrop ⊢
    rw [htake, hdrop]
    by_cases hp : d.powerChars = []
    · simp [hp]
    · simp [isExponent_powerChars hp]

theorem ofWord_integer (i : Int64) : ofWord (Value.integer i).text = .integer i := by
  have hs : StartsNumber (Value.integer i).text.toList := by
    rw [text, String.toList_ofList]; exact startsNumber_intNumeral i.toInt
  have hint : isIntegerWord (Value.integer i).text.toList = true := by
    rw [text, String.toList_ofList]
    unfold isIntegerWord
    rw [takeMinus_intNumeral]
    exact isNumeral_numeral _
  have hval : int64? (Value.integer i).text.toList = some i := by
    rw [text, String.toList_ofList]; exact int64?_intNumeral i
  unfold ofWord
  dsimp only
  rw [sameFold_of_startsNumber hs (by decide : foldCase "true".toList = 't' :: ['r', 'u', 'e'])
      (by decide),
    sameFold_of_startsNumber hs
      (by decide : foldCase "false".toList = 'f' :: ['a', 'l', 's', 'e']) (by decide),
    if_neg Bool.false_ne_true, if_neg Bool.false_ne_true, if_pos hint, hval]

theorem ofWord_float {x : Binary64} (h : x.IsFinite) :
    ofWord (Value.float x).text = .float x := by
  cases x with
  | nan => exact h.elim
  | infinite _ => exact h.elim
  | finite negative units fits =>
    obtain ⟨d, hd, -⟩ := Binary64.exists_decimal_of_finite negative fits
    have htext : (Value.float (.finite negative units fits)).text.toList =
        Binary64.signed negative d.chars := by
      rw [text, Binary64.text, String.toList_ofList, hd]
    have hs : StartsNumber (Value.float (.finite negative units fits)).text.toList := by
      rw [htext]; exact startsNumber_signed negative d
    unfold ofWord
    dsimp only
    rw [sameFold_of_startsNumber hs (by decide : foldCase "true".toList = 't' :: ['r', 'u', 'e'])
        (by decide),
      sameFold_of_startsNumber hs
        (by decide : foldCase "false".toList = 'f' :: ['a', 'l', 's', 'e']) (by decide),
      if_neg Bool.false_ne_true, if_neg Bool.false_ne_true, htext, isIntegerWord_signed,
      if_neg Bool.false_ne_true, if_pos (isFloatWord_signed negative d), ← hd,
      Binary64.ofText?_chars h]

/-- An unquoted value has its own value when it is read back. -/
theorem ofWord_text {v : Value} (h : v.IsWord) : ofWord v.text = v := by
  cases v with
  | integer i => exact ofWord_integer i
  | float x => exact ofWord_float h
  | boolean b => cases b <;> rfl
  | string _ => exact h.elim
  | list _ => exact h.elim

/-! ## Words of values among other tokens -/

theorem startsNumber_text {v : Value} (h : v.IsWord) :
    StartsNumber v.text.toList ∨ ∃ b, v = .boolean b := by
  cases v with
  | integer i =>
    rw [text, String.toList_ofList]; exact .inl (startsNumber_intNumeral i.toInt)
  | float x =>
    cases x with
    | nan => exact h.elim
    | infinite _ => exact h.elim
    | finite negative units fits =>
      obtain ⟨d, hd, -⟩ := Binary64.exists_decimal_of_finite negative fits
      rw [text, Binary64.text, String.toList_ofList, hd]
      exact .inl (startsNumber_signed negative d)
  | boolean b => exact .inr ⟨b, rfl⟩
  | string _ => exact h.elim
  | list _ => exact h.elim

theorem text_ne_nil {v : Value} (h : v.IsWord) : v.text.toList ≠ [] := by
  rcases startsNumber_text h with ⟨c, rest, hs, -⟩ | ⟨b, rfl⟩
  · simp [hs]
  · cases b <;> decide

theorem isReserved_text {v : Value} (h : v.IsWord) : isReserved v.text = false := by
  rcases startsNumber_text h with hs | ⟨b, rfl⟩
  · exact isReserved_of_startsNumber hs
  · cases b <;> decide

theorem ofKeyword?_text {v : Value} (h : v.IsWord) : CompareOperator.ofKeyword? v.text = none := by
  rcases startsNumber_text h with hs | ⟨b, rfl⟩
  · exact ofKeyword?_of_startsNumber hs
  · cases b <;> decide

theorem isNumberPart_of_mem_text {v : Value} (h : v.IsWord) {c : Char} (hc : c ∈ v.text.toList) :
    isNumberPart c = true ∨ isLetter c = true := by
  cases v with
  | integer i =>
    rw [text, String.toList_ofList] at hc
    exact .inl (isNumberPart_of_mem_intNumeral hc)
  | float x =>
    cases x with
    | nan => exact h.elim
    | infinite _ => exact h.elim
    | finite negative units fits =>
      obtain ⟨d, hd, -⟩ := Binary64.exists_decimal_of_finite negative fits
      rw [text, Binary64.text, String.toList_ofList, hd] at hc
      exact .inl (isNumberPart_of_mem_signed hc)
  | boolean b =>
    have hall : ∀ b, ∀ c ∈ (Value.boolean b).text.toList, isLetter c = true := by decide
    exact .inr (hall b c hc)
  | string _ => exact h.elim
  | list _ => exact h.elim

end Value

/-- Letters, digits and the marks of numbers end no word. -/
theorem isDelimiter_of_class {c : Char} (h : isNumberPart c = true ∨ isLetter c = true) :
    isDelimiter c = false := by
  have hascii : c.toNat < 128 := by
    rcases h with h | h
    · simp only [isNumberPart, Bool.or_eq_true, beq_iff_eq] at h
      rcases h with ((h | rfl) | rfl) | rfl
      · exact toNat_lt_of_isDigit h
      · decide
      · decide
      · decide
    · exact toNat_lt_of_isLetter h
  revert h
  exact of_ascii hascii (by decide)

end PolicyDialects.Filter
