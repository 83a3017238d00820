import Mathlib.Algebra.Group.Nat.Defs
import Mathlib.Tactic.Common
import PolicyDialects.Text.Quoted

/-!
# Numerals and literals, character by character

What the readers of numbers and string literals need to know about the texts
that `numeral`, `intNumeral` and `quote` write.

Results:

* `takeWhile_append_stops`, `dropWhile_append_stops`: a run of a class is read
  up to the first character outside it.
* `numeralValue_numeral`, `numeralValue_zeros_append`,
  `numeralValue_append_zeros`: digits denote the number that they were written
  for, and zeros on either side do what they should.
* `padded_lt_padded`: numerals of one width are in the order of their numbers.
* `int64?_intNumeral`: every 64-bit integer is read back from its numeral.
* `quoteChar_cases`: the three ways in which a character stands in a literal.
* `quoteBody_induction`: what is between the quotes, for readers that only skip
  escapes.
* `isControl_of_mem_quote`: a literal holds no control character.
-/

namespace PolicyDialects.Text

/-! ## Runs of a class -/

/-- The text does not go on with a character of the class. -/
def Stops (p : Char → Bool) (rest : List Char) : Prop := ∀ c ∈ rest.head?, p c = false

theorem stops_nil (p : Char → Bool) : Stops p [] := by simp [Stops]

theorem stops_cons {p : Char → Bool} {c : Char} (h : p c = false) (cs : List Char) :
    Stops p (c :: cs) := by simpa [Stops] using h

theorem stops_dropWhile (p : Char → Bool) (cs : List Char) : Stops p (cs.dropWhile p) := by
  intro c hc
  have hhead := List.head?_dropWhile_not p cs
  rw [Option.mem_def.mp hc] at hhead
  simpa using hhead

theorem Stops.mono {p q : Char → Bool} {cs : List Char} (h : Stops p cs)
    (himp : ∀ c, q c = true → p c = true) : Stops q cs := fun c hc => by
  by_contra hq
  have := himp c (by simpa using hq)
  rw [h c hc] at this
  cases this

/-- A run ends where the text does not go on with its class. -/
theorem takeWhile_append_stops {p : Char → Bool} {run rest : List Char}
    (hrun : ∀ c ∈ run, p c = true) (hrest : Stops p rest) : (run ++ rest).takeWhile p = run := by
  rw [List.takeWhile_append_of_pos hrun]
  cases rest with
  | nil => simp
  | cons c cs => rw [List.takeWhile_cons_of_neg (by simp [hrest c rfl]), List.append_nil]

theorem dropWhile_append_stops {p : Char → Bool} {run rest : List Char}
    (hrun : ∀ c ∈ run, p c = true) (hrest : Stops p rest) : (run ++ rest).dropWhile p = rest := by
  rw [List.dropWhile_append_of_pos hrun]
  cases rest with
  | nil => rfl
  | cons c cs => rw [List.dropWhile_cons_of_neg (by simp [hrest c rfl])]

/-! ## ASCII characters -/

/-- A property of all ASCII characters may be checked one by one. -/
@[elab_as_elim]
theorem of_ascii {P : Char → Prop} {c : Char} (hc : c.toNat < 128)
    (h : ∀ n < 128, P (Char.ofNat n)) : P c := by
  rw [← Char.ofNat_toNat c]
  exact h _ hc

theorem toNat_lt_of_isDigit {c : Char} (h : isDigit c = true) : c.toNat < 128 := by
  simp only [isDigit, Bool.and_eq_true, decide_eq_true_eq, Char.le_def,
    UInt32.le_iff_toNat_le] at h
  exact Nat.lt_of_le_of_lt h.2 (by decide)

theorem toNat_lt_of_isLetter {c : Char} (h : isLetter c = true) : c.toNat < 128 := by
  simp only [isLetter, Bool.and_eq_true, Bool.or_eq_true, decide_eq_true_eq, Char.le_def,
    UInt32.le_iff_toNat_le] at h
  rcases h with h | h
  · exact Nat.lt_of_le_of_lt h.2 (by decide)
  · exact Nat.lt_of_le_of_lt h.2 (by decide)

/-! ## Digits -/

theorem isDigit_eq (c : Char) : isDigit c = c.isDigit := by
  rw [Bool.eq_iff_iff]
  simp [isDigit, Char.isDigit, Char.le_def]

theorem numeralValue_eq_ofDigitChars (cs : List Char) :
    numeralValue cs = Nat.ofDigitChars 10 cs 0 := by
  rw [Nat.ofDigitChars_eq_foldl]; rfl

theorem numeralValue_numeral (n : Nat) : numeralValue (numeral n) = n := by
  rw [numeralValue_eq_ofDigitChars]; exact Nat.ofDigitChars_ten_toDigits

/-- Zeros in front do not count. -/
theorem numeralValue_zeros_append (k : Nat) (cs : List Char) :
    numeralValue (List.replicate k '0' ++ cs) = numeralValue cs := by
  rw [numeralValue_eq_ofDigitChars, numeralValue_eq_ofDigitChars, Nat.ofDigitChars_append,
    Nat.ofDigitChars_replicate_zero, Nat.mul_zero]

/-- Each zero at the end multiplies by ten. -/
theorem numeralValue_append_zeros (cs : List Char) (k : Nat) :
    numeralValue (cs ++ List.replicate k '0') = numeralValue cs * Nat.pow 10 k := by
  rw [numeralValue_eq_ofDigitChars, numeralValue_eq_ofDigitChars, Nat.ofDigitChars_append,
    Nat.ofDigitChars_replicate_zero, Nat.mul_comm]
  rfl

theorem numeralValue_cons (c : Char) (cs : List Char) :
    numeralValue (c :: cs) = 10 ^ cs.length * (c.toNat - '0'.toNat) + numeralValue cs := by
  rw [numeralValue_eq_ofDigitChars, numeralValue_eq_ofDigitChars, Nat.ofDigitChars_cons,
    Nat.ofDigitChars_eq_ofDigitChars_zero, Nat.mul_zero, Nat.zero_add]

theorem toNat_bounds_of_isDigit {c : Char} (h : isDigit c = true) :
    '0'.toNat ≤ c.toNat ∧ c.toNat < '0'.toNat + 10 := by
  simp only [isDigit, Bool.and_eq_true, decide_eq_true_eq, Char.le_def,
    UInt32.le_iff_toNat_le] at h
  exact ⟨h.1, Nat.lt_succ_of_le h.2⟩

/-- So many digits stay below a power of ten. -/
theorem numeralValue_lt {cs : List Char} (h : ∀ c ∈ cs, isDigit c = true) :
    numeralValue cs < 10 ^ cs.length := by
  induction cs with
  | nil => decide
  | cons c cs ih =>
    obtain ⟨hc, hcs⟩ := List.forall_mem_cons.mp h
    have hdigit : c.toNat - '0'.toNat ≤ 9 := by
      have hbounds := toNat_bounds_of_isDigit hc
      omega
    calc numeralValue (c :: cs)
        = 10 ^ cs.length * (c.toNat - '0'.toNat) + numeralValue cs := numeralValue_cons c cs
      _ < 10 ^ cs.length * (c.toNat - '0'.toNat) + 10 ^ cs.length :=
          Nat.add_lt_add_left (ih hcs) _
      _ ≤ 10 ^ cs.length * 9 + 10 ^ cs.length :=
          Nat.add_le_add_right (Nat.mul_le_mul_left _ hdigit) _
      _ = 10 ^ (c :: cs).length := by rw [List.length_cons, Nat.pow_succ, ← Nat.mul_succ]

/-- Digits of equal number are in the order of the numbers that they spell. -/
theorem lt_of_numeralValue_lt {cs ds : List Char} (hlen : cs.length = ds.length)
    (hcs : ∀ c ∈ cs, isDigit c = true) (hds : ∀ c ∈ ds, isDigit c = true)
    (h : numeralValue cs < numeralValue ds) : cs < ds := by
  induction cs generalizing ds with
  | nil =>
    obtain rfl := List.eq_nil_of_length_eq_zero hlen.symm
    exact absurd h (Nat.lt_irrefl _)
  | cons c cs ih =>
    obtain ⟨d, ds, rfl⟩ := List.exists_cons_of_length_eq_add_one hlen.symm
    obtain ⟨-, hcs'⟩ := List.forall_mem_cons.mp hcs
    obtain ⟨hd, hds'⟩ := List.forall_mem_cons.mp hds
    have hrest : cs.length = ds.length := Nat.succ.inj hlen
    rw [numeralValue_cons, numeralValue_cons, hrest] at h
    rw [List.cons_lt_cons_iff]
    rcases Nat.lt_trichotomy c.toNat d.toNat with hlt | heq | hgt
    · exact .inl hlt
    · obtain rfl : c = d := Char.toNat_inj.mp heq
      exact .inr ⟨rfl, ih hrest hcs' hds' (Nat.lt_of_add_lt_add_left h)⟩
    · -- A smaller first digit cannot be made up for by what follows it.
      have hfirst : d.toNat - '0'.toNat + 1 ≤ c.toNat - '0'.toNat := by
        have hbounds := toNat_bounds_of_isDigit hd
        omega
      have hscaled := Nat.mul_le_mul_left (10 ^ ds.length) hfirst
      have hbelow := numeralValue_lt hds'
      rw [Nat.mul_succ] at hscaled
      omega

theorem numeral_ne_nil (n : Nat) : numeral n ≠ [] := Nat.toDigits_ne_nil

theorem isDigit_of_mem_numeral {n : Nat} {c : Char} (h : c ∈ numeral n) : isDigit c = true := by
  rw [isDigit_eq]
  exact Nat.isDigit_of_mem_toDigits (by decide) (by decide) h

theorem numeralValue_padded (width n : Nat) : numeralValue (padded width n) = n := by
  rw [padded, List.leftpad, numeralValue_zeros_append, numeralValue_numeral]

theorem isDigit_of_mem_padded {width n : Nat} {c : Char} (h : c ∈ padded width n) :
    isDigit c = true := by
  rw [padded, List.leftpad, List.mem_append] at h
  rcases h with h | h
  · rw [List.eq_of_mem_replicate h]
    rfl
  · exact isDigit_of_mem_numeral h

theorem length_padded {width n : Nat} (hwidth : 0 < width) (h : n < 10 ^ width) :
    (padded width n).length = width := by
  rw [padded, List.length_leftpad]
  exact Nat.max_eq_left ((Nat.length_toDigits_le_iff (by decide) hwidth).mpr h)

/-- Padded numerals are in the order of their numbers, as long as the padding is wide
enough. -/
theorem padded_lt_padded {width m n : Nat} (hmn : m < n) (hn : n < 10 ^ width) :
    padded width m < padded width n := by
  have hwidth : 0 < width := by
    rcases Nat.eq_zero_or_pos width with rfl | hpos
    · omega
    · exact hpos
  refine lt_of_numeralValue_lt ?_ (fun _ => isDigit_of_mem_padded)
    (fun _ => isDigit_of_mem_padded) ?_
  · rw [length_padded hwidth (Nat.lt_trans hmn hn), length_padded hwidth hn]
  · rwa [numeralValue_padded, numeralValue_padded]

theorem isNumeral_of_digits {cs : List Char} (hne : cs ≠ []) (h : ∀ c ∈ cs, isDigit c = true) :
    isNumeral cs = true := by
  simp [isNumeral, hne, List.all_eq_true.mpr h]

theorem isNumeral_numeral (n : Nat) : isNumeral (numeral n) = true :=
  isNumeral_of_digits (numeral_ne_nil n) fun _ h => isDigit_of_mem_numeral h

theorem ne_of_isDigit {c d : Char} (h : isDigit c = true) (hd : isDigit d = false) : c ≠ d := by
  rintro rfl
  rw [h] at hd
  cases hd

/-- A digit is no minus sign. -/
theorem takeMinus_digits {cs : List Char} (h : ∀ c ∈ cs, isDigit c = true) :
    takeMinus cs = (false, cs) := by
  unfold takeMinus
  split
  · exact absurd rfl (ne_of_isDigit (h '-' (by simp)) (by decide))
  · rfl

/-! ## Signed numerals -/

theorem takeMinus_intNumeral (i : Int) :
    takeMinus (intNumeral i) = (decide (i < 0), numeral i.natAbs) := by
  cases i with
  | ofNat n => exact takeMinus_digits fun _ h => isDigit_of_mem_numeral h
  | negSucc n =>
    have hneg : Int.negSucc n < 0 := Int.negSucc_lt_zero n
    simp [intNumeral, takeMinus, hneg]

/-- Every 64-bit integer is read back from its numeral. -/
theorem int64?_intNumeral (i : Int64) : int64? (intNumeral i.toInt) = some i := by
  have hmin := Int64.minValue_le_toInt i
  have hmax := Int64.toInt_le i
  have hval : (if decide (i.toInt < 0) = true then -(i.toInt.natAbs : Int) else i.toInt.natAbs) =
      i.toInt := by
    by_cases h : i.toInt < 0
    · simp only [h, decide_true, if_true]; omega
    · simp only [h, decide_false, Bool.false_eq_true, if_false]; omega
  unfold int64?
  rw [takeMinus_intNumeral]
  simp only [numeralValue_numeral, isNumeral_numeral, hval]
  rw [if_pos ⟨trivial, hmin, hmax⟩, Int64.ofInt_toInt]

/-! ## Quoted literals -/

theorem toNat_lt_of_isControl {c : Char} (h : isControl c = true) : c.toNat < 256 := by
  simp only [isControl, Bool.or_eq_true, Bool.and_eq_true, decide_eq_true_eq] at h
  omega

/-- A hexadecimal digit is read back. -/
theorem hexValue?_hexDigit {n : Nat} (h : n < 16) : hexValue? (hexDigit n) = some n := by
  revert n; decide

/-- A character stands for itself, or is escaped by one letter, or by its
number in hexadecimal. -/
theorem quoteChar_cases (c : Char) :
    (quoteChar c = [c] ∧ c ≠ '"' ∧ c ≠ '\\' ∧ isControl c = false) ∨
    (∃ e, quoteChar c = ['\\', e] ∧
      ((e, c) ∈ [('"', '"'), ('\\', '\\'), ('n', '\n'), ('r', '\r'), ('t', '\t')])) ∨
    (isControl c = true ∧
      quoteChar c = ['\\', 'u', '0', '0', hexDigit (c.toNat / 16), hexDigit (c.toNat % 16)]) := by
  unfold quoteChar
  split_ifs with h1 h2 h3 h4 h5 h6
  · exact .inr (.inl ⟨_, rfl, by simp [h1]⟩)
  · exact .inr (.inl ⟨_, rfl, by simp [h2]⟩)
  · exact .inr (.inl ⟨_, rfl, by simp [h3]⟩)
  · exact .inr (.inl ⟨_, rfl, by simp [h4]⟩)
  · exact .inr (.inl ⟨_, rfl, by simp [h5]⟩)
  · exact .inr (.inr ⟨h6, rfl⟩)
  · exact .inl ⟨rfl, h1, h2, by simpa using h6⟩

theorem hexDigit_ne {n : Nat} (h : n < 16) :
    hexDigit n ≠ '"' ∧ hexDigit n ≠ '\\' ∧ hexDigit n ≠ '+' := by
  revert n; decide

/-- A quoted body is made of characters that are neither quotation marks nor
backslashes, and of backslashes with a character behind them that ends no line. -/
@[elab_as_elim]
theorem quoteBody_induction {motive : List Char → Prop} (nil : motive [])
    (char : ∀ {c cs}, c ≠ '"' → c ≠ '\\' → motive cs → motive (c :: cs))
    (escape : ∀ {e cs}, e ≠ '\n' → motive cs → motive ('\\' :: e :: cs)) (cs : List Char) :
    motive (quoteBody cs) := by
  induction cs with
  | nil => exact nil
  | cons c cs ih =>
    rw [quoteBody_cons]
    rcases quoteChar_cases c with ⟨hq, hquote, hslash, -⟩ | ⟨e, hq, he⟩ | ⟨hc, hq⟩
    · rw [hq]
      exact char hquote hslash ih
    · have hne : e ≠ '\n' := by
        rintro rfl
        revert he
        simp
      rw [hq]
      exact escape hne ih
    · have hlt := toNat_lt_of_isControl hc
      obtain ⟨hhigh, hhigh', -⟩ := hexDigit_ne (n := c.toNat / 16) (by omega)
      obtain ⟨hlow, hlow', -⟩ := hexDigit_ne (n := c.toNat % 16) (by omega)
      have hdigits := char hhigh hhigh' (char hlow hlow' ih)
      rw [hq]
      exact escape (by decide) (char (by decide) (by decide) (char (by decide) (by decide) hdigits))

theorem isControl_hexDigit {n : Nat} (h : n < 16) : isControl (hexDigit n) = false := by
  revert n; decide

theorem isControl_of_mem_quoteBody {cs : List Char} {x : Char} (h : x ∈ quoteBody cs) :
    isControl x = false := by
  obtain ⟨c, -, hx⟩ := List.mem_flatMap.mp h
  rcases quoteChar_cases c with ⟨hq, -, -, hc⟩ | ⟨e, hq, he⟩ | ⟨hc, hq⟩
  · rw [hq] at hx
    simpa [List.mem_singleton.mp hx] using hc
  · rw [hq] at hx
    simp only [List.mem_cons, Prod.mk.injEq, List.not_mem_nil, or_false] at he hx
    rcases hx with rfl | rfl
    · decide
    · rcases he with h | h | h | h | h <;> rw [h.1] <;> decide
  · have hlt := toNat_lt_of_isControl hc
    rw [hq] at hx
    simp only [List.mem_cons, List.not_mem_nil, or_false] at hx
    rcases hx with rfl | rfl | rfl | rfl | rfl | rfl
    · decide
    · decide
    · decide
    · decide
    · exact isControl_hexDigit (by omega)
    · exact isControl_hexDigit (by omega)

/-- A literal holds no control character. -/
theorem isControl_of_mem_quote {s : String} {x : Char} (h : x ∈ (quote s).toList) :
    isControl x = false := by
  have hmark : isControl '"' = false := by decide
  rw [toList_quote, List.mem_cons, List.mem_append, List.mem_singleton] at h
  rcases h with rfl | h | rfl
  · exact hmark
  · exact isControl_of_mem_quoteBody h
  · exact hmark

end PolicyDialects.Text
