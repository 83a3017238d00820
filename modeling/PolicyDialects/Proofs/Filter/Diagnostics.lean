import Mathlib.Data.List.Basic
import PolicyDialects.Proofs.Filter.Soundness

/-!
# Where the errors of filters point

Every token knows the byte at which it starts, and every error names such a
byte and what is written there. A string literal may be spelled in more than one
way, so an error about one quotes its content again.

Results:

* `pointsInto_tokenizeFrom`: tokens and lexical errors point into the text.
* `keepsWithin_term`: what the reader of terms blames is one of the tokens, or
  the end of the text.
* `Expression.pointsInto_of_parse`: every text that is no filter is refused with
  a parse error that points into it.
-/

namespace PolicyDialects.Filter

open Text

/-! ## Results and faults -/

/-- What is returned has one property, and what it fails with has another. -/
def Splits {ε α : Type} (onError : ε → Prop) (onOk : α → Prop) : Except ε α → Prop
  | .ok x => onOk x
  | .error e => onError e

section

variable {ε α β : Type} {onError : ε → Prop} {p : α → Prop} {q : β → Prop} {r : Except ε α}

theorem Splits.bind {k : α → Except ε β} (h : Splits onError p r)
    (hk : ∀ x, p x → Splits onError q (k x)) : Splits onError q (r >>= k) := by
  cases r with
  | error e => exact h
  | ok x => exact hk x h

theorem Splits.map {f : α → β} (h : Splits onError p r) (hf : ∀ x, p x → q (f x)) :
    Splits onError q (r.map f) := by
  cases r with
  | error e => exact h
  | ok x => exact hf x h

end

/-! ## Places in a text -/

/-- What is written here starts with the lexeme, or with a string literal whose
content is spelled by the lexeme. -/
def Shows (lexeme : String) (here : List Char) : Prop :=
  lexeme.toList <+: here ∨
    ∃ body content rest, here = '"' :: body ∧ readLiteral body = .ok (content, rest) ∧
      lexeme = quote (String.ofList content)

/-- The byte offset is one at which a character of the text starts, or its end,
and the lexeme is what is written there. -/
def PointsInto (text : String) (offset : Nat) (lexeme : String) : Prop :=
  ∃ before after : String, text = before ++ after ∧ before.utf8ByteSize = offset ∧
    Shows lexeme after.toList

theorem utf8ByteSize_ofList (cs : List Char) : (String.ofList cs).utf8ByteSize = byteLength cs := by
  induction cs with
  | nil => rfl
  | cons c cs ih =>
    rw [String.ofList_cons, String.utf8ByteSize_append, String.utf8ByteSize_singleton, ih,
      byteLength_cons]

/-- The text from an offset on, as the tokenizer goes through it. -/
def StandsAt (text : String) (offset : Nat) (here : List Char) : Prop :=
  ∃ before, text.toList = before ++ here ∧ byteLength before = offset

section

variable {text : String} {offset : Nat} {here : List Char}

theorem StandsAt.pointsInto {lexeme : String} (h : StandsAt text offset here)
    (hshows : Shows lexeme here) : PointsInto text offset lexeme := by
  obtain ⟨before, htext, hlength⟩ := h
  refine ⟨String.ofList before, String.ofList here, ?_, ?_, by rwa [String.toList_ofList]⟩
  · rw [← String.ofList_append, ← htext, String.ofList_toList]
  · rw [utf8ByteSize_ofList, hlength]

/-- Further on in the text. -/
theorem StandsAt.behind {front rest : List Char} (h : StandsAt text offset (front ++ rest)) :
    StandsAt text (offset + byteLength front) rest := by
  obtain ⟨before, htext, hlength⟩ := h
  exact ⟨before ++ front, by rw [htext, List.append_assoc], by rw [byteLength_append, hlength]⟩

theorem StandsAt.tail {c : Char} {rest : List Char} (h : StandsAt text offset (c :: rest)) :
    StandsAt text (offset + c.utf8Size) rest := by
  have hbehind : StandsAt text (offset + byteLength [c]) rest := h.behind
  rwa [byteLength_cons, byteLength_nil, Nat.add_zero] at hbehind

/-- The offset of an end of the text, counted from both sides. -/
theorem StandsAt.suffix {rest : List Char} (h : StandsAt text offset here) (hrest : rest <:+ here) :
    StandsAt text (offset + byteLength here - byteLength rest) rest := by
  obtain ⟨front, rfl⟩ := hrest
  have hbehind := h.behind
  rwa [byteLength_append, ← Nat.add_assoc, Nat.add_sub_cancel]

end

/-! ## String literals -/

/-- What stands where the reader of literals has stopped, at the end or at a
fault. -/
def stoppedAt : Except LiteralFault (List Char × List Char) → List Char
  | .ok (_, rest) => rest
  | .error .unterminated => []
  | .error (.badUnicode rest) => rest
  | .error (.badEscape rest) => rest

theorem stoppedAt_map (c : Char) (r : Except LiteralFault (List Char × List Char)) :
    stoppedAt (r.map fun (cs, rest) => (c :: cs, rest)) = stoppedAt r := by
  rcases r with (_ | _ | _) | _ <;> rfl

/-- The reader of literals stops somewhere in the text. -/
theorem stoppedAt_suffix (cs : List Char) : stoppedAt (readLiteral cs) <:+ cs := by
  fun_induction readLiteral cs with
  | case1 => exact List.suffix_refl _
  | case2 => exact List.nil_suffix
  | case3 rest => exact List.suffix_cons _ _
  | case4 a b c d rest char _ ih =>
    rw [stoppedAt_map]
    exact ih.trans (List.suffix_append ['\\', 'u', a, b, c, d] rest)
  | case5 => exact List.suffix_refl _
  | case6 => exact List.suffix_refl _
  | case7 e rest _ _ char _ ih =>
    rw [stoppedAt_map]
    exact ih.trans (List.suffix_append ['\\', e] rest)
  | case8 => exact List.suffix_refl _
  | case9 c rest _ _ _ _ ih =>
    rw [stoppedAt_map]
    exact ih.trans (List.suffix_cons _ _)

theorem takeBytes_prefix {n : Nat} {cs front : List Char} (h : takeBytes n cs = some front) :
    front <+: cs := by
  fun_induction takeBytes n cs generalizing front with
  | case1 | case2 =>
    obtain rfl := Option.some.inj h
    exact List.nil_prefix
  | case3 n c cs _ _ ih =>
    obtain ⟨front', hfront, rfl⟩ := Option.map_eq_some_iff.mp h
    exact (List.prefix_cons_inj c).mpr (ih hfront)
  | case4 => cases h

/-! ## Tokens -/

/-- An error of the reader of filters points into the text. -/
def Locates (text : String) (e : PolicyError) : Prop :=
  ∃ position lexeme message, e = .parse position lexeme message ∧ PointsInto text position lexeme

section

variable {text : String} {offset : Nat} {cs : List Char}

/-- A fault in a literal is located at its opening quote or at a backslash. -/
theorem locates_literalFault {fault : LiteralFault} (h : readLiteral cs = .error fault)
    (hstands : StandsAt text offset ('"' :: cs)) : Locates text (fault.toError offset cs) := by
  have hsuffix := stoppedAt_suffix cs
  have hbody : StandsAt text (offset + 1) cs := hstands.tail
  rw [h] at hsuffix
  cases fault with
  | unterminated =>
    refine ⟨_, _, _, rfl, hstands.pointsInto (.inl ⟨[], ?_⟩)⟩
    rw [String.toList_ofList, List.append_nil]
  | badUnicode rest =>
    refine ⟨_, _, _, rfl, (hbody.suffix hsuffix).pointsInto (.inl ?_)⟩
    rw [String.toList_ofList]
    cases hcut : takeBytes 6 rest with
    | none => exact List.nil_prefix
    | some front => exact takeBytes_prefix hcut
  | badEscape rest =>
    refine ⟨_, _, _, rfl, (hbody.suffix hsuffix).pointsInto (.inl ?_)⟩
    rw [String.toList_ofList]
    exact List.take_prefix 2 rest

/-- Every token points into the text. -/
def AllPointInto (text : String) (ts : List Placed) : Prop :=
  ∀ t ∈ ts, PointsInto text t.offset t.token.lexeme

/-- Tokens point into the text, and so does the error if there are none. -/
theorem pointsInto_tokenizeFrom (h : StandsAt text offset cs) :
    Splits (Locates text) (AllPointInto text) (tokenizeFrom offset cs) := by
  -- a token in front of others
  have hfront : ∀ {r : Except PolicyError (List Placed)} (t : Placed),
      PointsInto text t.offset t.token.lexeme → Splits (Locates text) (AllPointInto text) r →
      Splits (Locates text) (AllPointInto text) (r.map (t :: ·)) :=
    fun t ht hr => hr.map fun ts hts => List.forall_mem_cons.mpr ⟨ht, hts⟩
  have hmark : ∀ {offset c cs} {token : Token}, token.lexeme = String.singleton c →
      StandsAt text offset (c :: cs) → PointsInto text offset token.lexeme :=
    fun htoken h => h.pointsInto (.inl ⟨_, by rw [htoken, String.toList_singleton]; rfl⟩)
  fun_induction tokenizeFrom offset cs with
  | case1 => exact List.forall_mem_nil _
  | case2 offset c cs next _ ih => exact ih h.tail
  | case3 _ _ _ _ _ ih | case4 _ _ _ _ _ _ ih | case5 _ _ _ _ _ _ _ ih
  | case6 _ _ _ _ _ _ _ _ ih | case7 _ _ _ _ _ _ _ _ _ ih =>
    exact hfront _ (hmark rfl h) (ih h.tail)
  | case8 offset cs fault hfault => exact locates_literalFault hfault h
  | case9 offset cs s rest hread _ next _ _ _ _ _ _ _ ih =>
    have hsuffix := stoppedAt_suffix cs
    rw [hread] at hsuffix
    exact hfront _ (h.pointsInto (.inr ⟨cs, s, rest, rfl, hread, rfl⟩)) (ih (h.tail.suffix hsuffix))
  | case10 offset c cs next _ _ _ _ _ _ _ tail rest _ _ ih =>
    have hword : c :: cs = (c :: tail) ++ rest :=
      congrArg (c :: ·) List.takeWhile_append_dropWhile.symm
    rw [hword] at h
    have hbehind := h.behind
    rw [byteLength_cons, ← Nat.add_assoc] at hbehind
    refine hfront _ (h.pointsInto (.inl ?_)) (ih hbehind)
    rw [Token.lexeme, String.toList_ofList]
    exact List.prefix_append _ _

end

/-! ## What the parser blames -/

/-- The error is about one of the tokens or about the end of the text. -/
def Blames (finish : Nat) (tokens : List Placed) (e : PolicyError) : Prop :=
  (∃ fault : Fault, ∃ t ∈ tokens, e = fault.at t) ∨ ∃ fault : Fault, e = fault.atEnd finish

/-- What is left to be read are some of the tokens, and one of them is blamed. -/
def StaysWithin {α : Type} (finish : Nat) (tokens : List Placed)
    (r : Except PolicyError (α × List Placed)) : Prop :=
  Splits (Blames finish tokens) (fun x => x.2 ⊆ tokens) r

section

variable {finish : Nat} {tokens ts : List Placed} {opening t : Placed}

theorem blames_at (fault : Fault) (ht : t ∈ tokens) : Blames finish tokens (fault.at t) :=
  .inl ⟨fault, t, ht, rfl⟩

theorem blames_atEnd (fault : Fault) : Blames finish tokens (fault.atEnd finish) :=
  .inr ⟨fault, rfl⟩

theorem staysWithin_readItems (hopening : opening ∈ tokens) (hts : ts ⊆ tokens) :
    StaysWithin finish tokens (readItems opening ts) := by
  fun_induction readItems opening ts with
  | case1 | case3 => exact blames_at .unclosedBracket hopening
  | case2 o rest => exact (List.cons_subset.mp hts).2
  | case4 o t rest v hv ih =>
    obtain ⟨-, ht, hrest⟩ := List.cons_subset.mp hts |>.imp_right List.cons_subset.mp
    exact (ih hrest).map fun _ hleft => hleft
  | case5 o t rest hv =>
    exact blames_at .expectedItem (hts (by simp))
  | case6 t rest => exact blames_at .expectedSeparator (hts List.mem_cons_self)

theorem staysWithin_readList (hopening : opening ∈ tokens) (hts : ts ⊆ tokens) :
    StaysWithin finish tokens (readList opening ts) := by
  fun_cases readList opening ts with
  | case1 => exact blames_at .unclosedBracket hopening
  | case2 o rest => exact (List.cons_subset.mp hts).2
  | case3 t rest hne v hv =>
    exact (staysWithin_readItems hopening (List.cons_subset.mp hts).2).map fun _ hleft => hleft
  | case4 t rest => exact blames_at .expectedItem (hts List.mem_cons_self)

theorem staysWithin_readValue (op : CompareOperator) (ht : t ∈ tokens) (hts : ts ⊆ tokens) :
    StaysWithin finish tokens (readValue op t ts) := by
  fun_cases readValue op t ts with
  | case1 => exact blames_at .missingValue ht
  | case2 | case4 => exact (List.cons_subset.mp hts).2
  | case3 | case6 | case7 => exact blames_at .missingValue (hts List.mem_cons_self)
  | case5 o rest hop =>
    obtain ⟨hopening, hrest⟩ := List.cons_subset.mp hts
    exact (staysWithin_readList hopening hrest).map fun _ hleft => hleft

theorem splits_readClose (close : Token) (fault : Fault) (hopening : opening ∈ tokens)
    (hts : ts ⊆ tokens) :
    Splits (Blames finish tokens) (· ⊆ tokens) (readClose close fault opening ts) := by
  cases ts with
  | nil => exact blames_at fault hopening
  | cons t ts =>
    obtain ⟨ht, hts⟩ := List.cons_subset.mp hts
    rw [readClose]
    split_ifs
    · exact hts
    · exact blames_at fault ht

/-- A reader that stays within the tokens wherever it starts among them. -/
def KeepsWithin (finish : Nat) (tokens : List Placed) (reader : Reader) : Prop :=
  ∀ ts, ts ⊆ tokens → StaysWithin finish tokens (reader ts)

theorem staysWithin_chainFrom {op : LogicalOperator} {operand : Reader}
    (hoperand : KeepsWithin finish tokens operand) (left : Expression) (hts : ts ⊆ tokens) :
    StaysWithin finish tokens (chainFrom op operand left ts) := by
  fun_induction chainFrom op operand left ts with
  | case1 => exact hts
  | case2 left t rest _ e he =>
    have hread := hoperand rest (List.cons_subset.mp hts).2
    rwa [he] at hread
  | case3 left t rest _ right after hright _ ih =>
    have hread := hoperand rest (List.cons_subset.mp hts).2
    rw [hright] at hread
    exact ih hread
  | case4 left t rest _ right after hright =>
    have hread := hoperand rest (List.cons_subset.mp hts).2
    rwa [hright] at hread
  | case5 => exact hts

theorem KeepsWithin.chain {op : LogicalOperator} {operand : Reader}
    (hoperand : KeepsWithin finish tokens operand) :
    KeepsWithin finish tokens (chain op operand) := by
  intro ts hts
  have hread := hoperand ts hts
  unfold Filter.chain
  split
  · rename_i e he
    rwa [he] at hread
  · rename_i left rest hleft
    rw [hleft] at hread
    exact staysWithin_chainFrom hoperand left hread

theorem KeepsWithin.disjunction {term : Reader} (hterm : KeepsWithin finish tokens term) :
    KeepsWithin finish tokens (disjunction term) :=
  hterm.chain.chain

/-- An expression and the bracket behind it. -/
theorem KeepsWithin.bracketed {inner : Reader} (hinner : KeepsWithin finish tokens inner)
    (wrap : Expression → Expression) (close : Token) (fault : Fault)
    (hopening : opening ∈ tokens) (hts : ts ⊆ tokens) :
    StaysWithin finish tokens (inner ts >>= fun p =>
      readClose close fault opening p.2 >>= fun rest => .ok (wrap p.1, rest)) :=
  (hinner ts hts).bind fun _ hrest =>
    (splits_readClose close fault hopening hrest).bind fun _ hleft => hleft

theorem staysWithin_readAttribute {inner : Reader} (hinner : KeepsWithin finish tokens inner)
    {path : String} {offset : Nat} (hpath : ⟨.word path, offset⟩ ∈ tokens) (hts : ts ⊆ tokens) :
    StaysWithin finish tokens (readAttribute inner path offset ts) := by
  fun_cases readAttribute inner path offset ts with
  | case1 => exact blames_at .missingOperator hpath
  | case2 o rest =>
    obtain ⟨hopening, hrest⟩ := List.cons_subset.mp hts
    exact hinner.bracketed (.valuePath path) .rightBracket .unclosedBracket hopening hrest
  | case3 w o rest => exact blames_at .unknownOperator (hts List.mem_cons_self)
  | case4 w o rest => exact (List.cons_subset.mp hts).2
  | case5 w o rest op _ _ =>
    obtain ⟨hop, hrest⟩ := List.cons_subset.mp hts
    exact (staysWithin_readValue op hop hrest).bind fun _ hleft => hleft
  | case6 t rest => exact blames_at .expectedOperator (hts List.mem_cons_self)

/-- A term blames one of the tokens, or the end where it should stand. -/
theorem keepsWithin_term (n : Nat) : KeepsWithin finish tokens (term finish n) := by
  induction n with
  | zero =>
    intro ts hts
    cases ts with
    | nil => exact blames_atEnd .tooDeep
    | cons t ts => exact blames_at .tooDeep (hts List.mem_cons_self)
  | succ n ih =>
    intro ts hts
    have hinner := ih.disjunction
    match ts with
    | [] => exact blames_atEnd .expectedExpression
    | ⟨.word w, o⟩ :: rest =>
      obtain ⟨ht, hrest⟩ := List.cons_subset.mp hts
      rw [term]
      split_ifs
      · exact (ih rest hrest).bind fun _ hleft => hleft
      · exact blames_at .missingLeftOperand ht
      · exact staysWithin_readAttribute hinner ht hrest
    | ⟨.leftParen, o⟩ :: rest =>
      obtain ⟨ht, hrest⟩ := List.cons_subset.mp hts
      exact hinner.bracketed .group .rightParen .unclosedParen ht hrest
    | ⟨.rightParen, _⟩ :: _ => exact blames_at .strayParen (hts List.mem_cons_self)
    | ⟨.rightBracket, _⟩ :: _ => exact blames_at .strayBracket (hts List.mem_cons_self)
    | ⟨.leftBracket, _⟩ :: _ | ⟨.comma, _⟩ :: _ | ⟨.literal _, _⟩ :: _ =>
      exact blames_at .unexpectedToken (hts List.mem_cons_self)

end

/-! ## Whole texts -/

theorem shows_empty (here : List Char) : Shows "" here := .inl ⟨here, rfl⟩

/-- What the tokens blame is found in the text that they come from. -/
theorem Blames.locates {text : String} {tokens : List Placed} {e : PolicyError}
    (h : Blames (byteLength text.toList) tokens e) (htokens : AllPointInto text tokens) :
    Locates text e := by
  obtain ⟨fault, t, ht, rfl⟩ | ⟨fault, rfl⟩ := h
  · exact ⟨_, _, _, rfl, htokens t ht⟩
  · have hend : StandsAt text (byteLength text.toList) [] :=
      ⟨text.toList, (List.append_nil _).symm, rfl⟩
    exact ⟨_, _, _, rfl, hend.pointsInto (shows_empty _)⟩

theorem splits_parseTokens {text : String} {tokens : List Placed}
    (htokens : AllPointInto text tokens) :
    Splits (Locates text) (fun _ => True) (parseTokens (byteLength text.toList) tokens) := by
  have hterm : KeepsWithin (byteLength text.toList) tokens
      (term (byteLength text.toList) maxNesting) := keepsWithin_term maxNesting
  have hread := hterm.disjunction tokens (List.Subset.refl _)
  unfold parseTokens
  split
  · rename_i e he
    rw [he] at hread
    exact hread.locates htokens
  · rename_i t rest hrest
    rw [hrest] at hread
    exact ⟨_, _, _, rfl, htokens t (hread List.mem_cons_self)⟩
  · split_ifs
    · trivial
    · have hstart : StandsAt text 0 text.toList := ⟨[], rfl, rfl⟩
      exact ⟨_, _, _, rfl, hstart.pointsInto (shows_empty _)⟩

/-- Every text that is no filter is refused with a parse error. Its position is
that of a character of the text or the end, and there the text starts with the
lexeme, or with a string literal whose content is quoted again in the lexeme. -/
theorem Expression.pointsInto_of_parse {text : String} {e : PolicyError}
    (h : Expression.parse text = .error e) :
    ∃ position lexeme message, e = .parse position lexeme message ∧
      PointsInto text position lexeme := by
  have hstart : StandsAt text 0 text.toList := ⟨[], rfl, rfl⟩
  have hparse : Splits (Locates text) (fun _ => True) (Expression.parse text) :=
    (pointsInto_tokenizeFrom hstart).bind fun _ => splits_parseTokens
  rwa [h] at hparse

/-- A literal too many, behind a letter of two bytes, with an escape that
quoting does not use. -/
theorem Expression.pointsInto_respelledLiteral :
    Expression.parse "é eq 1 \"a\\/b\"" =
        .error (.parse 8 "\"a/b\"" "unexpected token after expression") ∧
      PointsInto "é eq 1 \"a\\/b\"" 8 "\"a/b\"" := by
  have hparse : Expression.parse "é eq 1 \"a\\/b\"" =
      .error (.parse 8 "\"a/b\"" "unexpected token after expression") := by decide +kernel
  obtain ⟨_, _, _, heq, hpoints⟩ := Expression.pointsInto_of_parse hparse
  obtain ⟨rfl, rfl, rfl⟩ := PolicyError.parse.inj heq
  exact ⟨hparse, hpoints⟩

end PolicyDialects.Filter
