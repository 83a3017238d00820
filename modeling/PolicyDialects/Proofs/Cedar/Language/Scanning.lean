import Mathlib.Data.List.Find
import PolicyDialects.Cedar.Language.Token
import PolicyDialects.Proofs.Cedar.Lexical

/-!
# Scanning texts of the Cedar language

How a text of the Cedar language is cut into tokens, and when the tokens of its
front are tokens of the front alone.

Results:

* `tokensOf?_blank`, …, `tokensOf?_mark`: what a text starts with decides its
  first token.
* `scan_induct`: induction from each token to the text behind it.
* `isSealed`, `tokensOf?_append`: a text that ends outside of strings and
  comments, in front of what ends a token.
-/

namespace PolicyDialects.Cedar.Language

open Text

/-! ## One token at a time -/

/-- The rest of a line. -/
def inLine (c : Char) : Bool := c != '\n' && c != '\r'

/-- A character that starts a mark, or no token. -/
structure StartsMark (c : Char) : Prop where
  blank : isBlank c = false
  slash : c ≠ '/'
  ident : isIdentStart c = false
  digit : isDigit c = false
  quote : c ≠ '"'

section

variable {c : Char}

theorem toNat_lt_of_isIdentPart (h : isIdentPart c = true) : c.toNat < 128 := by
  rcases Bool.or_eq_true_iff.mp h with hstart | hdigit
  · rcases Bool.or_eq_true_iff.mp hstart with hletter | hunderscore
    · exact toNat_lt_of_isLetter hletter
    · rw [beq_iff_eq.mp hunderscore]
      decide
  · exact toNat_lt_of_isDigit hdigit

theorem isBlank_plain (h : isBlank c = true) : c ≠ '/' ∧ c ≠ '"' := by
  constructor
  · rintro rfl
    revert h
    decide
  · rintro rfl
    revert h
    decide

theorem isIdentStart_plain (h : isIdentStart c = true) :
    isBlank c = false ∧ c ≠ '/' ∧ c ≠ '"' := by
  have hlt := toNat_lt_of_isIdentPart (Bool.or_eq_true_iff.mpr (.inl h))
  revert h
  exact of_ascii (P := fun c => isIdentStart c = true → isBlank c = false ∧ c ≠ '/' ∧ c ≠ '"') hlt
    (by decide)

theorem isDigit_plain (h : isDigit c = true) :
    isBlank c = false ∧ isIdentStart c = false ∧ c ≠ '/' ∧ c ≠ '"' := by
  have hlt := toNat_lt_of_isDigit h
  revert h
  exact of_ascii (P := fun c => isDigit c = true →
    isBlank c = false ∧ isIdentStart c = false ∧ c ≠ '/' ∧ c ≠ '"') hlt (by decide)

theorem isIdentPart_of_isDigit (c : Char) (h : isDigit c = true) : isIdentPart c = true := by
  rw [isIdentPart, h, Bool.or_true]

theorem startsMark_cases (c : Char) :
    isBlank c = true ∨ c = '/' ∨ isIdentStart c = true ∨ isDigit c = true ∨ c = '"' ∨
      StartsMark c := by
  by_contra h
  simp only [not_or, Bool.not_eq_true] at h
  obtain ⟨hblank, hslash, hident, hdigit, hquote, hmark⟩ := h
  exact hmark ⟨hblank, hslash, hident, hdigit, hquote⟩

theorem tokensOf?_nil : tokensOf? [] = some [] := by
  rw [tokensOf?.eq_def]

theorem tokensOf?_blank (h : isBlank c = true) (cs : List Char) :
    tokensOf? (c :: cs) = tokensOf? cs := by
  rw [tokensOf?.eq_def]
  dsimp only
  rw [if_pos h]

theorem tokensOf?_comment (cs : List Char) :
    tokensOf? ('/' :: '/' :: cs) = tokensOf? (cs.dropWhile inLine) := by
  rw [tokensOf?.eq_def]
  dsimp only
  rw [if_neg (by decide), if_pos rfl]
  rfl

theorem tokensOf?_slash {cs : List Char} (h : cs.head? ≠ some '/') :
    tokensOf? ('/' :: cs) = none := by
  rw [tokensOf?.eq_def]
  dsimp only
  rw [if_neg (by decide), if_pos rfl]
  split
  · exact absurd rfl h
  · rfl

theorem tokensOf?_ident (h : isIdentStart c = true) (cs : List Char) :
    tokensOf? (c :: cs) = (tokensOf? (cs.dropWhile isIdentPart)).map
      (.ident (String.ofList (c :: cs.takeWhile isIdentPart)) :: ·) := by
  obtain ⟨hblank, hslash, -⟩ := isIdentStart_plain h
  rw [tokensOf?.eq_def]
  dsimp only
  rw [if_neg (by simp [hblank]), if_neg hslash, if_pos h]

theorem tokensOf?_number (h : isDigit c = true) (cs : List Char) :
    tokensOf? (c :: cs) = (tokensOf? (cs.dropWhile isDigit)).map
      (.number (numeralValue (c :: cs.takeWhile isDigit)) :: ·) := by
  obtain ⟨hblank, hident, hslash, -⟩ := isDigit_plain h
  rw [tokensOf?.eq_def]
  dsimp only
  rw [if_neg (by simp [hblank]), if_neg hslash, if_neg (by simp [hident]), if_pos h]

theorem tokensOf?_string (cs : List Char) :
    tokensOf? ('"' :: cs) =
      (takeLiteral cs).bind fun p => (tokensOf? p.2).map (.string p.1 :: ·) := by
  rw [tokensOf?.eq_def]
  dsimp only
  rw [if_neg (by decide), if_neg (by decide), if_neg (by decide), if_neg (by decide), if_pos rfl]
  split
  · rename_i h
    rw [h, Option.bind_none]
  · rename_i h
    rw [h, Option.bind_some]

/-- The mark that a text starts with. -/
def mark? (cs : List Char) : Option String := marks.find? fun m => m.toList.isPrefixOf cs

theorem tokensOf?_mark (h : StartsMark c) (cs : List Char) :
    tokensOf? (c :: cs) = (mark? (c :: cs)).bind fun m =>
      (tokensOf? (cs.drop (m.length - 1))).map (.mark m :: ·) := by
  rw [tokensOf?.eq_def]
  dsimp only
  rw [if_neg (by simp [h.blank]), if_neg h.slash, if_neg (by simp [h.ident]),
    if_neg (by simp [h.digit]), if_neg h.quote, mark?]
  split
  · rename_i h
    rw [h, Option.bind_none]
  · rename_i h
    rw [h, Option.bind_some]

/-- A text is scanned from its first token on. -/
@[elab_as_elim]
theorem scan_induct {motive : List Char → Prop} (nil : motive [])
    (blank : ∀ {c} cs, isBlank c = true → motive cs → motive (c :: cs))
    (comment : ∀ cs, motive (cs.dropWhile inLine) → motive ('/' :: '/' :: cs))
    (slash : ∀ {cs}, cs.head? ≠ some '/' → motive ('/' :: cs))
    (ident : ∀ {c} cs, isIdentStart c = true → motive (cs.dropWhile isIdentPart) →
      motive (c :: cs))
    (number : ∀ {c} cs, isDigit c = true → motive (cs.dropWhile isDigit) → motive (c :: cs))
    (string : ∀ cs, (∀ s r, takeLiteral cs = some (s, r) → motive r) → motive ('"' :: cs))
    (mark : ∀ {c} cs, StartsMark c →
      (∀ m, mark? (c :: cs) = some m → motive (cs.drop (m.length - 1))) → motive (c :: cs))
    (cs : List Char) : motive cs := by
  induction hn : cs.length using Nat.strongRecOn generalizing cs with
  | ind n ih =>
  subst hn
  cases cs with
  | nil => exact nil
  | cons c cs =>
    have hlater : ∀ ds : List Char, ds.length ≤ cs.length → motive ds :=
      fun ds hle => ih _ (Nat.lt_succ_of_le hle) ds rfl
    rcases startsMark_cases c with hblank | rfl | hident | hdigit | rfl | hmark
    · exact blank cs hblank (hlater cs (Nat.le_refl _))
    · cases cs with
      | nil => exact slash (by simp)
      | cons d cs =>
        by_cases hd : d = '/'
        · subst hd
          exact comment cs
            (hlater _ (Nat.le_succ_of_le (List.dropWhile_sublist inLine).length_le))
        · exact slash (by simpa using hd)
    · exact ident cs hident (hlater _ (List.dropWhile_sublist _).length_le)
    · exact number cs hdigit (hlater _ (List.dropWhile_sublist _).length_le)
    · exact string cs fun s r h => hlater r (Nat.le_of_lt (length_of_takeLiteral h))
    · exact mark cs hmark fun m _ => hlater _ (List.drop_sublist _ _).length_le

end

/-! ## Literals -/

section

variable {cs s r : List Char}

theorem takeLiteral_escape {c : Char} (hc : c ≠ '\n') (cs : List Char) :
    takeLiteral ('\\' :: c :: cs) = (takeLiteral cs).map fun (s, r) => ('\\' :: c :: s, r) := by
  rw [takeLiteral, if_neg hc]

theorem takeLiteral_char {c : Char} (hquote : c ≠ '"') (hslash : c ≠ '\\') (cs : List Char) :
    takeLiteral (c :: cs) = (takeLiteral cs).map fun (s, r) => (c :: s, r) := by
  rw [takeLiteral, if_neg hslash]
  · exact hquote
  · exact fun _ _ h => absurd h hslash

/-- What is taken as the text of a literal is read as it is in front of any
text. -/
theorem takeLiteral_append (h : takeLiteral cs = some (s, r)) :
    cs = s ++ '"' :: r ∧ ∀ rest, takeLiteral (s ++ '"' :: rest) = some (s, rest) := by
  fun_induction takeLiteral cs generalizing s with
  | case1 => cases h
  | case2 tail =>
    obtain ⟨rfl, rfl⟩ := Prod.mk.inj (Option.some.inj h)
    exact ⟨rfl, fun _ => rfl⟩
  | case3 => cases h
  | case4 c tail hc ih =>
    obtain ⟨⟨s', r'⟩, htail, heq⟩ := Option.map_eq_some_iff.mp h
    obtain ⟨rfl, rfl⟩ := Prod.mk.inj heq
    obtain ⟨rfl, hrest⟩ := ih htail
    refine ⟨rfl, fun rest => ?_⟩
    rw [List.cons_append, List.cons_append, takeLiteral_escape hc, hrest]
    rfl
  | case5 => cases h
  | case6 c tail hquote _ hslash ih =>
    obtain ⟨⟨s', r'⟩, htail, heq⟩ := Option.map_eq_some_iff.mp h
    obtain ⟨rfl, rfl⟩ := Prod.mk.inj heq
    obtain ⟨rfl, hrest⟩ := ih htail
    refine ⟨rfl, fun rest => ?_⟩
    rw [List.cons_append, takeLiteral_char hquote hslash, hrest]
    rfl

/-- A literal of the language is one of documents. -/
theorem takeStringTail_of_takeLiteral (h : takeLiteral cs = some (s, r)) :
    takeStringTail cs = some (s ++ ['"'], r) := by
  fun_induction takeLiteral cs generalizing s with
  | case1 => cases h
  | case2 tail =>
    obtain ⟨rfl, rfl⟩ := Prod.mk.inj (Option.some.inj h)
    rfl
  | case3 => cases h
  | case4 c tail hc ih =>
    obtain ⟨⟨s', r'⟩, htail, heq⟩ := Option.map_eq_some_iff.mp h
    obtain ⟨rfl, rfl⟩ := Prod.mk.inj heq
    rw [takeStringTail, ih htail]
    rfl
  | case5 => cases h
  | case6 c tail hquote hpair hslash ih =>
    obtain ⟨⟨s', r'⟩, htail, heq⟩ := Option.map_eq_some_iff.mp h
    obtain ⟨rfl, rfl⟩ := Prod.mk.inj heq
    rw [takeStringTail, ih htail]
    · rfl
    · exact hquote
    · exact hpair

end

/-! ## Texts that do not reach into what follows -/

/-- Whether the text ends outside of strings and comments. -/
def isSealed : List Char → Bool
  | [] => true
  | c :: cs =>
    if c = '/' then
      match cs with
      | '/' :: comment =>
        have := (List.dropWhile_sublist (l := comment) inLine).length_le
        !(comment.dropWhile inLine).isEmpty && isSealed (comment.dropWhile inLine)
      | cs => isSealed cs
    else if c = '"' then
      match h : takeLiteral cs with
      | none => false
      | some (_, rest) =>
        have := length_of_takeLiteral h
        isSealed rest
    else isSealed cs
termination_by cs => cs.length
decreasing_by all_goals simp_all +arith <;> omega

/-- Characters that end any token. -/
def endsToken (c : Char) : Bool := isBlank c || endsEntity c

/-- The token in front ends here. -/
abbrev EndsToken (rest : List Char) : Prop := ∀ c ∈ rest.head?, endsToken c = true

/-- The second characters of marks. -/
def secondChars : List Char := [':', '=', '|', '&']

section

variable {c : Char} {cs s r rest : List Char}

theorem isSealed_comment (cs : List Char) : isSealed ('/' :: '/' :: cs) =
    (!(cs.dropWhile inLine).isEmpty && isSealed (cs.dropWhile inLine)) := by
  rw [isSealed.eq_def]
  rfl

theorem isSealed_string (cs : List Char) :
    isSealed ('"' :: cs) = (takeLiteral cs).any fun p => isSealed p.2 := by
  rw [isSealed.eq_def]
  dsimp only
  rw [if_neg (by decide), if_pos rfl]
  split
  · rename_i h
    rw [h]
    rfl
  · rename_i h
    rw [h]
    rfl

theorem isSealed_char (hslash : c ≠ '/') (hquote : c ≠ '"') (cs : List Char) :
    isSealed (c :: cs) = isSealed cs := by
  rw [isSealed.eq_def]
  dsimp only
  rw [if_neg hslash, if_neg hquote]

theorem isSealed_dropWhile {p : Char → Bool} (hslash : p '/' = false) (hquote : p '"' = false)
    (cs : List Char) : isSealed (cs.dropWhile p) = isSealed cs := by
  induction cs with
  | nil => rfl
  | cons c cs ih =>
    rw [List.dropWhile_cons]
    split
    · rename_i hp
      rw [ih, isSealed_char]
      · rintro rfl
        rw [hslash] at hp
        cases hp
      · rintro rfl
        rw [hquote] at hp
        cases hp
    · rfl

/-- What ends a token goes on with none. -/
theorem endsToken_plain (h : endsToken c = true) :
    isIdentPart c = false ∧ c ≠ '/' ∧ c ≠ '"' ∧ c ∉ secondChars := by
  have hident : isIdentPart c = false := by
    by_contra hpart
    rw [Bool.not_eq_false] at hpart
    have hends : isIdentPart c = true → endsToken c = false :=
      of_ascii (P := fun c => isIdentPart c = true → endsToken c = false)
        (toNat_lt_of_isIdentPart hpart) (by decide)
    rw [hends hpart] at h
    cases h
  refine ⟨hident, ?_, ?_, ?_⟩
  · rintro rfl
    revert h
    decide
  · rintro rfl
    revert h
    decide
  · intro hmem
    have hnone : ∀ c ∈ secondChars, endsToken c = false := by decide
    rw [hnone c hmem] at h
    cases h

theorem stops_of_endsToken {p : Char → Bool} (hrest : EndsToken rest)
    (hp : ∀ c, p c = true → isIdentPart c = true) : Stops p rest := by
  have hident : Stops isIdentPart rest := fun c hc => (endsToken_plain (hrest c hc)).1
  exact hident.mono hp

/-- Marks have one character, or two. -/
theorem marks_shape {m : String} (h : m ∈ marks) :
    (∃ a, m.toList = [a]) ∨ ∃ a b, m.toList = [a, b] ∧ b ∈ secondChars := by
  have hshape : ∀ m ∈ marks, m.toList.length = 1 ∨
      m.toList.length = 2 ∧ ∀ b ∈ m.toList.tail, b ∈ secondChars := by decide
  rcases hshape m h with hlength | ⟨hlength, hsecond⟩
  · exact .inl (List.length_eq_one_iff.mp hlength)
  · obtain ⟨a, b, hm⟩ := List.length_eq_two.mp hlength
    rw [hm] at hsecond
    exact .inr ⟨a, b, hm, hsecond b (List.mem_singleton_self b)⟩

theorem mark?_append (hrest : EndsToken rest) (c : Char) (cs : List Char) :
    mark? (c :: (cs ++ rest)) = mark? (c :: cs) := by
  refine List.find?_congr fun m hm => ?_
  rcases marks_shape hm with ⟨a, hm⟩ | ⟨a, b, hm, hb⟩
  · simp [hm, List.isPrefixOf]
  · cases cs with
    | cons d cs => simp [hm, List.isPrefixOf]
    | nil =>
      cases rest with
      | nil => rfl
      | cons d rest =>
        have hne : b ≠ d := by
          rintro rfl
          exact (endsToken_plain (hrest b rfl)).2.2.2 hb
        simp [hm, List.isPrefixOf, hne]

/-- What stands behind the first mark. -/
theorem drop_of_mark? {m : String} (h : mark? (c :: cs) = some m) :
    (m.toList = [c] ∧ cs.drop (m.length - 1) = cs) ∨
      ∃ d tail, cs = d :: tail ∧ d ∈ secondChars ∧ m.toList = [c, d] ∧
        cs.drop (m.length - 1) = tail := by
  have hfound : m.toList.isPrefixOf (c :: cs) = true :=
    List.find?_some (p := fun m : String => m.toList.isPrefixOf (c :: cs)) h
  have hprefix := List.isPrefixOf_iff_prefix.mp hfound
  rw [← String.length_toList]
  rcases marks_shape (List.mem_of_find?_eq_some h) with ⟨a, hm⟩ | ⟨a, b, hm, hb⟩
  · rw [hm, List.cons_prefix_cons] at hprefix
    rw [hm, hprefix.1]
    exact .inl ⟨rfl, rfl⟩
  · rw [hm, List.cons_prefix_cons] at hprefix
    obtain ⟨rfl, tail, rfl⟩ := hprefix
    rw [hm]
    exact .inr ⟨b, tail, rfl, hb, rfl, rfl⟩

theorem isSealed_drop_of_mark? {m : String} (h : mark? (c :: cs) = some m) :
    isSealed (cs.drop (m.length - 1)) = isSealed cs := by
  rcases drop_of_mark? h with ⟨-, hdrop⟩ | ⟨d, tail, rfl, hd, -, hdrop⟩
  · rw [hdrop]
  · rw [hdrop, isSealed_char]
    · rintro rfl
      revert hd
      decide
    · rintro rfl
      revert hd
      decide

/-- A run of a class in front of what ends a token. -/
theorem span_append {p : Char → Bool} (hrest : Stops p rest) (cs : List Char) :
    (cs ++ rest).takeWhile p = cs.takeWhile p ∧
      (cs ++ rest).dropWhile p = cs.dropWhile p ++ rest := by
  induction cs with
  | nil => exact ⟨takeWhile_append_stops (List.forall_mem_nil _) hrest,
      dropWhile_append_stops (List.forall_mem_nil _) hrest⟩
  | cons c cs ih =>
    rw [List.cons_append, List.takeWhile_cons, List.takeWhile_cons, List.dropWhile_cons,
      List.dropWhile_cons, ih.1, ih.2]
    split
    · exact ⟨rfl, rfl⟩
    · exact ⟨rfl, rfl⟩

/-- Tokens of a sealed text do not depend on what follows it. -/
theorem tokensOf?_append (h : isSealed cs = true) (hrest : EndsToken rest) :
    tokensOf? (cs ++ rest) = (tokensOf? cs).bind fun ts => (tokensOf? rest).map (ts ++ ·) := by
  have hfirst : ∀ {t : Token} {tail : List Char},
      tokensOf? (tail ++ rest) =
        ((tokensOf? tail).bind fun ts => (tokensOf? rest).map (ts ++ ·)) →
      (tokensOf? (tail ++ rest)).map (t :: ·) =
        ((tokensOf? tail).map (t :: ·)).bind fun ts => (tokensOf? rest).map (ts ++ ·) := by
    intro t tail htail
    rw [htail, Option.map_bind, Option.bind_map]
    congr 1
    funext ts
    simp [Function.comp_def]
  induction cs using scan_induct with
  | nil =>
    rw [tokensOf?_nil, Option.bind_some]
    simp
  | blank cs hblank ih =>
    obtain ⟨hslash, hquote⟩ := isBlank_plain hblank
    rw [isSealed_char hslash hquote] at h
    rw [List.cons_append, tokensOf?_blank hblank, tokensOf?_blank hblank, ih h]
  | comment cs ih =>
    rw [isSealed_comment, Bool.and_eq_true, Bool.not_eq_true', List.isEmpty_eq_false_iff] at h
    have happend : (cs ++ rest).dropWhile inLine = cs.dropWhile inLine ++ rest := by
      rw [List.dropWhile_append, if_neg (by simpa using h.1)]
    rw [List.cons_append, List.cons_append, tokensOf?_comment, tokensOf?_comment, happend, ih h.2]
  | @slash cs hhead =>
    have hhead' : (cs ++ rest).head? ≠ some '/' := by
      cases cs with
      | nil => exact fun hslash => (endsToken_plain (hrest '/' hslash)).2.1 rfl
      | cons d cs => simpa using hhead
    rw [List.cons_append, tokensOf?_slash hhead', tokensOf?_slash hhead]
    rfl
  | ident cs hident ih =>
    obtain ⟨-, hslash, hquote⟩ := isIdentStart_plain hident
    rw [isSealed_char hslash hquote, ← isSealed_dropWhile (p := isIdentPart) rfl rfl] at h
    obtain ⟨htake, hdropWhile⟩ := span_append (stops_of_endsToken hrest fun _ => id) cs
    rw [List.cons_append, tokensOf?_ident hident, tokensOf?_ident hident, htake, hdropWhile]
    exact hfirst (ih h)
  | number cs hdigit ih =>
    obtain ⟨-, -, hslash, hquote⟩ := isDigit_plain hdigit
    rw [isSealed_char hslash hquote, ← isSealed_dropWhile (p := isDigit) rfl rfl] at h
    have hstops : Stops isDigit rest := stops_of_endsToken hrest isIdentPart_of_isDigit
    obtain ⟨htake, hdropWhile⟩ := span_append hstops cs
    rw [List.cons_append, tokensOf?_number hdigit, tokensOf?_number hdigit, htake, hdropWhile]
    exact hfirst (ih h)
  | string cs ih =>
    rw [isSealed_string] at h
    obtain ⟨⟨body, after⟩, hbody, hafter⟩ := (Option.any_eq_true _ _).mp h
    have hih := ih body after hbody hafter
    obtain ⟨rfl, hany⟩ := takeLiteral_append hbody
    rw [List.cons_append, tokensOf?_string, tokensOf?_string, hbody, List.append_assoc,
      List.cons_append, hany, Option.bind_some, Option.bind_some]
    exact hfirst hih
  | mark cs hmark ih =>
    rw [isSealed_char hmark.slash hmark.quote] at h
    rw [List.cons_append, tokensOf?_mark hmark, tokensOf?_mark hmark, mark?_append hrest]
    cases hm : mark? (_ :: cs) with
    | none => rfl
    | some m =>
      have happend : (cs ++ rest).drop (m.length - 1) = cs.drop (m.length - 1) ++ rest := by
        rcases drop_of_mark? hm with ⟨hm, -⟩ | ⟨d, tail, rfl, -, hm, -⟩
        · rw [← String.length_toList, hm]
          rfl
        · rw [← String.length_toList, hm]
          rfl
      rw [Option.bind_some, Option.bind_some, happend]
      exact hfirst (ih m hm ((isSealed_drop_of_mark? hm).trans h))

end

end PolicyDialects.Cedar.Language
