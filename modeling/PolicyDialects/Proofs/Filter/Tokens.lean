import PolicyDialects.Filter.Token
import PolicyDialects.Proofs.Filter.Canonical
import PolicyDialects.Proofs.Filter.Word

/-!
# Tokens of printed expressions

The text of an expression is a sequence of tokens that can be told from the
expression alone, provided that its paths are words.

Results:

* `readLiteral_quoteBody`, `tokenizeFrom_quote`: a quoted text is read back,
  whatever it holds and whatever stands behind it.
* `lexes_mark`, `lexes_literal`, `lexes_word`, `lexes_blank`: how the tokens of
  a text follow from those of its end.
* `Expression.lexes_text`: the tokens of a printed expression, in any context
  that does not go on with its last word.
* `Expression.tokens_leftNested`: they do not show how chains are nested.
-/

namespace PolicyDialects.Filter

open Text

/-! ## String literals -/

/-- A control character is read back from its number in hexadecimal. -/
theorem unicode?_of_isControl {c : Char} (h : isControl c = true) :
    unicode? '0' '0' (hexDigit (c.toNat / 16)) (hexDigit (c.toNat % 16)) = some c := by
  have hlt := toNat_lt_of_isControl h
  have hzero : hexValue? '0' = some 0 := rfl
  have hcode : ((0 * 16 + 0) * 16 + c.toNat / 16) * 16 + c.toNat % 16 = c.toNat := by omega
  unfold unicode? Json.hex4?
  rw [hzero, hexValue?_hexDigit (by omega), hexValue?_hexDigit (by omega)]
  simp only [Option.bind_eq_bind, Option.bind_some, Option.pure_def, hcode, charOfCode?_toNat]

/-- A character is read back, as it is or from its escape. -/
theorem readLiteral_quoteChar (c : Char) (cs : List Char) :
    readLiteral (quoteChar c ++ cs) = (readLiteral cs).map fun (s, r) => (c :: s, r) := by
  rcases quoteChar_cases c with ⟨hq, hquote, hslash, -⟩ | ⟨e, hq, he⟩ | ⟨hc, hq⟩
  · rw [hq, List.singleton_append, readLiteral]
    · exact fun h => absurd h hslash
    · exact hquote
    · exact fun _ _ _ _ _ h => absurd h hslash
    · exact fun _ _ h => absurd h hslash
  · have hescaped : e ≠ 'u' ∧ escaped? e = some c := by
      simp only [List.mem_cons, Prod.mk.injEq, List.not_mem_nil, or_false] at he
      rcases he with ⟨rfl, rfl⟩ | ⟨rfl, rfl⟩ | ⟨rfl, rfl⟩ | ⟨rfl, rfl⟩ | ⟨rfl, rfl⟩ <;> decide
    obtain ⟨hu, hescape⟩ := hescaped
    rw [hq, List.cons_append, List.singleton_append, readLiteral]
    · rw [if_neg hu, hescape]
    · rintro _ _ _ _ _ rfl
      exact absurd rfl hu
  · rw [hq]
    simp only [List.cons_append, List.nil_append]
    rw [readLiteral, unicode?_of_isControl hc]

/-- A quoted text is read back, and what follows its closing quote is left. -/
theorem readLiteral_quoteBody (cs rest : List Char) :
    readLiteral (quoteBody cs ++ '"' :: rest) = .ok (cs, rest) := by
  induction cs with
  | nil => rw [quoteBody_nil, List.nil_append, readLiteral]
  | cons c cs ih =>
    rw [quoteBody_cons, List.append_assoc, readLiteral_quoteChar, ih]
    rfl

/-! ## Texts and their tokens -/

/-- Wherever the text starts, these are its tokens. -/
def Lexes (cs : List Char) (ts : List Token) : Prop :=
  ∀ offset, (tokenizeFrom offset cs).map (List.map Placed.token) = .ok ts

/-- A word: not empty, and without a character that ends a word. -/
def IsUnbroken (w : String) : Prop := w.toList ≠ [] ∧ ∀ c ∈ w.toList, isDelimiter c = false

instance : DecidablePred IsUnbroken := fun w =>
  inferInstanceAs (Decidable (w.toList ≠ [] ∧ ∀ c ∈ w.toList, isDelimiter c = false))

/-- The text does not go on with a word. -/
abbrev EndsWord (rest : List Char) : Prop := Stops (!isDelimiter ·) rest

theorem endsWord_cons {c : Char} (h : isDelimiter c = true) (cs : List Char) :
    EndsWord (c :: cs) := stops_cons (by simp [h]) cs

theorem lexes_nil : Lexes [] [] := fun offset => by rw [tokenizeFrom.eq_def]; rfl

theorem lexes_blank {c : Char} {cs : List Char} {ts : List Token} (hc : isBlank c = true)
    (h : Lexes cs ts) : Lexes (c :: cs) ts := fun offset => by
  rw [tokenizeFrom.eq_def]
  simp only [hc, if_true]
  exact h _

/-- The tokens after the first one, put behind it. -/
theorem map_cons_token {r : Except PolicyError (List Placed)} {ts : List Token} (t : Placed)
    (h : r.map (List.map Placed.token) = .ok ts) :
    (r.map (t :: ·)).map (List.map Placed.token) = .ok (t.token :: ts) := by
  cases r with
  | error e => cases h
  | ok ps => rw [← Except.ok.inj h]; rfl

/-- The tokens of one character. -/
def marks : List (Char × Token) :=
  [('(', .leftParen), (')', .rightParen), ('[', .leftBracket), (']', .rightBracket), (',', .comma)]

theorem lexes_mark {c : Char} {t : Token} {cs : List Char} {ts : List Token}
    (hmark : (c, t) ∈ marks) (h : Lexes cs ts) : Lexes (c :: cs) (t :: ts) := fun offset => by
  rw [tokenizeFrom.eq_def]
  simp only [marks, List.mem_cons, Prod.mk.injEq, List.not_mem_nil, or_false] at hmark
  rcases hmark with ⟨rfl, rfl⟩ | ⟨rfl, rfl⟩ | ⟨rfl, rfl⟩ | ⟨rfl, rfl⟩ | ⟨rfl, rfl⟩ <;>
    exact map_cons_token _ (h _)

/-- A quoted text is one token, and reading goes on right behind it. -/
theorem tokenizeFrom_quote (s : String) (rest : List Char) (offset : Nat) :
    tokenizeFrom offset ((quote s).toList ++ rest) =
      (tokenizeFrom (offset + byteLength (quote s).toList) rest).map
        (⟨.literal s, offset⟩ :: ·) := by
  have hread : readLiteral (quoteBody s.toList ++ '"' :: rest) = .ok (s.toList, rest) :=
    readLiteral_quoteBody s.toList rest
  have hend : offset + '"'.utf8Size + byteLength (quoteBody s.toList ++ '"' :: rest) -
      byteLength rest = offset + byteLength ('"' :: (quoteBody s.toList ++ ['"'])) := by
    simp only [byteLength_append, byteLength_cons, byteLength_nil]
    omega
  rw [toList_quote, List.cons_append, List.append_assoc, List.singleton_append,
    tokenizeFrom.eq_def]
  simp only [(by decide : isBlank '"' = false), Bool.false_eq_true, if_false, Char.reduceEq,
    if_true]
  split
  · rename_i heq
    rw [hread] at heq
    cases heq
  · rename_i heq
    rw [hread] at heq
    obtain ⟨rfl, rfl⟩ := Prod.mk.inj (Except.ok.inj heq)
    rw [String.ofList_toList, hend]

theorem lexes_literal {s : String} {cs : List Char} {ts : List Token} (h : Lexes cs ts) :
    Lexes ((quote s).toList ++ cs) (.literal s :: ts) := fun offset => by
  rw [tokenizeFrom_quote]
  exact map_cons_token _ (h _)

theorem lexes_word {w : String} {cs : List Char} {ts : List Token} (hw : IsUnbroken w)
    (hcs : EndsWord cs) (h : Lexes cs ts) : Lexes (w.toList ++ cs) (.word w :: ts) :=
  fun offset => by
  obtain ⟨hne, hchars⟩ := hw
  obtain ⟨c, tail, hc⟩ := List.exists_cons_of_ne_nil hne
  have hdelim : isDelimiter c = false := hchars c (by simp [hc])
  have htail : ∀ x ∈ tail, (!isDelimiter x) = true := fun x hx => by
    simp [hchars x (by simp [hc, hx])]
  simp only [isDelimiter, Bool.or_eq_false_iff, beq_eq_false_iff_ne] at hdelim
  obtain ⟨⟨⟨⟨⟨⟨hblank, h1⟩, h2⟩, h3⟩, h4⟩, h5⟩, h6⟩ := hdelim
  rw [hc, List.cons_append, tokenizeFrom.eq_def]
  simp only [hblank, h1, h2, h3, h4, h5, h6, Bool.false_eq_true, if_false]
  rw [takeWhile_append_stops htail hcs, dropWhile_append_stops htail hcs, ← hc,
    String.ofList_toList]
  exact map_cons_token _ (h _)

/-! ## Tokens of values -/

namespace Value

mutual

/-- The tokens of a printed value. -/
def tokens : Value → List Token
  | .string s => [.literal s]
  | .integer i => [.word (Value.integer i).text]
  | .float x => [.word (Value.float x).text]
  | .boolean b => [.word (Value.boolean b).text]
  | .list items => .leftBracket :: (itemTokens items ++ [.rightBracket])

/-- The tokens of printed items with commas between them. -/
def itemTokens : List Value → List Token
  | [] => []
  | [v] => tokens v
  | v :: w :: vs => tokens v ++ .comma :: itemTokens (w :: vs)

end

mutual

/-- Every double in the value is finite. -/
def FloatsFinite : Value → Prop
  | .string _ => True
  | .integer _ => True
  | .float x => x.IsFinite
  | .boolean _ => True
  | .list items => AllFloatsFinite items

/-- Every double in the values is finite. -/
def AllFloatsFinite : List Value → Prop
  | [] => True
  | v :: vs => FloatsFinite v ∧ AllFloatsFinite vs

end

mutual

instance FloatsFinite.decidable : (v : Value) → Decidable v.FloatsFinite
  | .string _ => isTrue trivial
  | .integer _ => isTrue trivial
  | .float x => inferInstanceAs (Decidable x.IsFinite)
  | .boolean _ => isTrue trivial
  | .list items => AllFloatsFinite.decidable items

instance AllFloatsFinite.decidable : (vs : List Value) → Decidable (AllFloatsFinite vs)
  | [] => isTrue trivial
  | v :: vs => @instDecidableAnd _ _ (FloatsFinite.decidable v) (AllFloatsFinite.decidable vs)

end

theorem isUnbroken_text {v : Value} (h : v.IsWord) : IsUnbroken v.text :=
  ⟨text_ne_nil h, fun _ hc => isDelimiter_of_class (isNumberPart_of_mem_text h hc)⟩

/-- Doubles that are no numbers are written as one word as well. -/
theorem isUnbroken_float (x : Binary64) : IsUnbroken (Value.float x).text := by
  cases x with
  | nan => decide
  | infinite negative => cases negative <;> decide
  | finite negative units fits => exact isUnbroken_text (v := .float (.finite _ _ fits)) trivial

/-- The spelling of two or more items. -/
theorem toList_intercalate_texts (v w : Value) (vs : List Value) :
    (", ".intercalate (texts (v :: w :: vs))).toList =
      v.text.toList ++ ',' :: ' ' :: (", ".intercalate (texts (w :: vs))).toList := by
  simp [texts, String.toList_intercalate, List.intercalate]

mutual

theorem lexes_text (v : Value) {cs : List Char} {ts : List Token} (hcs : EndsWord cs)
    (hts : Lexes cs ts) : Lexes (v.text.toList ++ cs) (v.tokens ++ ts) := by
  match v with
  | .string s => exact lexes_literal hts
  | .integer i => exact lexes_word (isUnbroken_text (v := .integer i) trivial) hcs hts
  | .float x => exact lexes_word (isUnbroken_float x) hcs hts
  | .boolean b => exact lexes_word (isUnbroken_text (v := .boolean b) trivial) hcs hts
  | .list items =>
    have hclose : Lexes (']' :: cs) (.rightBracket :: ts) := lexes_mark (by decide) hts
    have hitems := lexes_items items (endsWord_cons (by decide) cs) hclose
    have hopen := lexes_mark (c := '[') (t := .leftBracket) (by decide) hitems
    simpa [text, tokens] using hopen

theorem lexes_items (items : List Value) {cs : List Char} {ts : List Token} (hcs : EndsWord cs)
    (hts : Lexes cs ts) :
    Lexes ((", ".intercalate (texts items)).toList ++ cs) (itemTokens items ++ ts) := by
  match items with
  | [] => exact hts
  | [v] => exact lexes_text v hcs hts
  | v :: w :: vs =>
    have hrest := lexes_items (w :: vs) hcs hts
    have hcomma := lexes_mark (c := ',') (t := .comma) (by decide)
      (lexes_blank (c := ' ') (by decide) hrest)
    have hfirst := lexes_text v (endsWord_cons (by decide) _) hcomma
    rw [toList_intercalate_texts]
    simpa [itemTokens] using hfirst

end

end Value

/-! ## Tokens of expressions -/

/-- The tokens of a printed comparison. -/
def Comparison.tokens (c : Comparison) : List Token :=
  .word c.path :: .word c.operator.keyword :: (c.value.map Value.tokens).getD []

/-- The path is a word, and a value is present exactly when the operator takes
one. -/
structure Comparison.IsWellFormed (c : Comparison) : Prop where
  path : IsUnbroken c.path
  value_iff : c.value.isSome = true ↔ c.operator ≠ .pr

/-- Every path is a word, and every comparison has the value that its operator
takes. -/
abbrev Expression.IsWellFormed (e : Expression) : Prop :=
  e.Each IsUnbroken Comparison.IsWellFormed

/-- The path is a word, a value is present exactly when the operator takes
one, and its doubles are finite. -/
structure Comparison.IsLexical (c : Comparison) : Prop where
  path : IsUnbroken c.path
  value_iff : c.value.isSome = true ↔ c.operator ≠ .pr
  finite : ∀ v ∈ c.value, v.FloatsFinite

/-- Every path is a word, every comparison has the value that its operator
takes, and every double is finite. -/
abbrev Expression.IsLexical (e : Expression) : Prop := e.Each IsUnbroken Comparison.IsLexical

theorem Expression.IsLexical.isWellFormed {e : Expression} (h : e.IsLexical) : e.IsWellFormed :=
  h.imp (fun _ hp => hp) fun _ hc => ⟨hc.path, hc.value_iff⟩

theorem isUnbroken_keyword (op : CompareOperator) : IsUnbroken op.keyword := by
  cases op <;> decide

theorem LogicalOperator.isUnbroken_keyword (op : LogicalOperator) : IsUnbroken op.keyword := by
  cases op <;> decide

theorem Comparison.lexes_text {c : Comparison} (hc : c.IsWellFormed) {cs : List Char}
    {ts : List Token} (hcs : EndsWord cs) (hts : Lexes cs ts) :
    Lexes (c.text.toList ++ cs) (c.tokens ++ ts) := by
  obtain ⟨path, operator, value⟩ := c
  obtain ⟨hpath, hvalue⟩ := hc
  have hblank : ∀ xs, EndsWord (' ' :: xs) := endsWord_cons (by decide)
  cases value with
  | none =>
    have hop : operator = .pr := by simpa using hvalue
    subst hop
    have hword := lexes_word (w := "pr") (isUnbroken_keyword .pr) hcs hts
    have hfirst := lexes_word hpath (hblank _) (lexes_blank (c := ' ') (by decide) hword)
    simpa [text, tokens, CompareOperator.keyword] using hfirst
  | some v =>
    have hop : operator ≠ .pr := by simpa using hvalue
    have hlast := v.lexes_text hcs hts
    have hword := lexes_word (isUnbroken_keyword operator) (hblank _)
      (lexes_blank (c := ' ') (by decide) hlast)
    have hfirst := lexes_word hpath (hblank _) (lexes_blank (c := ' ') (by decide) hword)
    simpa [text, tokens, hop] using hfirst

namespace Expression

/-- The tokens of a printed expression in which the operand of every `not` has
its parentheses. -/
def tokens : Expression → List Token
  | .compare c => c.tokens
  | .logical op left right => left.tokens ++ .word op.keyword :: right.tokens
  | .not inner => .word "not" :: inner.tokens
  | .group inner => .leftParen :: (inner.tokens ++ [.rightParen])
  | .valuePath path filter => .word path :: .leftBracket :: (filter.tokens ++ [.rightBracket])

/-- One pair of parentheses is written around the operand of `not`. -/
theorem text_not (e : Expression) :
    (Expression.not e).text = (if e.unparenthesized.isLogical then "not (" else "not(") ++
      e.unparenthesized.text ++ ")" := by
  cases e with
  | group inner =>
    by_cases h : inner.isLogical = true <;> simp [text, unparenthesized, h]
  | _ => rfl

/-- The spelling of a negation whose operand is in one pair of parentheses. -/
theorem lexes_negation (spaced : Bool) {inner : List Char} {ts us : List Token} {cs : List Char}
    (hinner : ∀ {cs us}, EndsWord cs → Lexes cs us → Lexes (inner ++ cs) (ts ++ us))
    (hus : Lexes cs us) :
    Lexes ((if spaced then "not (" else "not(").toList ++ (inner ++ ')' :: cs))
      (.word "not" :: .leftParen :: (ts ++ .rightParen :: us)) := by
  have hclose := hinner (endsWord_cons (by decide) cs)
    (lexes_mark (c := ')') (t := .rightParen) (by decide) hus)
  have hopen := lexes_mark (c := '(') (t := .leftParen) (by decide) hclose
  have hnot : IsUnbroken "not" := by decide
  cases spaced with
  | true =>
    exact lexes_word hnot (endsWord_cons (by decide) _) (lexes_blank (c := ' ') (by decide) hopen)
  | false => exact lexes_word hnot (endsWord_cons (by decide) _) hopen

/-- A printed expression has the tokens of its enclosed form, in any context
that does not go on with its last word. -/
theorem lexes_text {e : Expression} (he : e.IsWellFormed) {cs : List Char} {ts : List Token}
    (hcs : EndsWord cs) (hts : Lexes cs ts) :
    Lexes (e.text.toList ++ cs) (e.enclosed.tokens ++ ts) := by
  fun_induction enclosed e generalizing cs ts with
  | case1 c => exact Comparison.lexes_text he hcs hts
  | case2 op left right ihl ihr =>
    have hright := ihr he.2 hcs hts
    have hword := lexes_word op.isUnbroken_keyword (endsWord_cons (by decide) _)
      (lexes_blank (c := ' ') (by decide) hright)
    have hleft := ihl he.1 (endsWord_cons (by decide) _)
      (lexes_blank (c := ' ') (by decide) hword)
    simpa [text, tokens] using hleft
  | case3 inner ih =>
    have h := lexes_negation inner.isLogical (fun hcs hts => ih he hcs hts) hts
    have hinner : (group inner).unparenthesized = inner := rfl
    rw [text_not, hinner]
    simpa [tokens] using h
  | case4 inner hne ih =>
    have h := lexes_negation inner.isLogical (fun hcs hts => ih he hcs hts) hts
    have hinner : inner.unparenthesized = inner := by
      cases inner with
      | group i => exact absurd rfl (hne i)
      | _ => rfl
    rw [text_not, hinner]
    simpa [tokens] using h
  | case5 inner ih =>
    have hclose := ih he (endsWord_cons (by decide) cs)
      (lexes_mark (c := ')') (t := .rightParen) (by decide) hts)
    have hopen := lexes_mark (c := '(') (t := .leftParen) (by decide) hclose
    simpa [text, tokens] using hopen
  | case6 path filter ih =>
    have hclose := ih he.2 (endsWord_cons (by decide) cs)
      (lexes_mark (c := ']') (t := .rightBracket) (by decide) hts)
    have hopen := lexes_mark (c := '[') (t := .leftBracket) (by decide) hclose
    have hpath := lexes_word he.1 (endsWord_cons (by decide) _) hopen
    simpa [text, tokens] using hpath

/-! ## Tokens do not show nesting -/

theorem tokens_attach (op : LogicalOperator) (left e : Expression) :
    (attach op left e).tokens = left.tokens ++ .word op.keyword :: e.tokens := by
  refine attach_induction (motive := fun e r => r.tokens =
    left.tokens ++ .word op.keyword :: e.tokens) (fun a b ih => ?_) (fun e _ => rfl) e
  simp only [tokens] at ih ⊢
  rw [ih, List.append_assoc, List.cons_append]

/-- How chains are nested does not show in their tokens. -/
theorem tokens_leftNested (e : Expression) : e.leftNested.tokens = e.tokens := by
  induction e with
  | compare c => rfl
  | logical op left right ihl ihr => rw [leftNested_logical, tokens_attach, ihl, ihr]; rfl
  | not inner ih => simp only [leftNested, tokens, ih]
  | group inner ih => simp only [leftNested, tokens, ih]
  | valuePath path filter ih => simp only [leftNested, tokens, ih]

end Expression

end PolicyDialects.Filter
