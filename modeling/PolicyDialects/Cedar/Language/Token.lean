import PolicyDialects.Text.Numeral

/-!
# Tokens of the Cedar language

The tokens of the full policy language, as opposed to the document structure
that is exchanged. White space is that of Unicode, and comments run from `//`
to the end of the line.

* `Token` — identifiers, numbers, string literals and marks.
* `tokens?` — the tokens of a text, unless a character starts none.
* `isText`, `isPattern` — whether the escapes of a literal are known.
-/

namespace PolicyDialects.Cedar.Language

open Text

/-- A token of the policy language. -/
inductive Token where
  | ident (name : String)
  | number (value : Nat)
  /-- A string literal, as the text between its quotes. -/
  | string (body : List Char)
  | mark (spelling : String)
  deriving DecidableEq, Inhabited

/-- The marks, a longer one before any that it starts with. -/
def marks : List String :=
  ["::", "==", "!=", "<=", ">=", "||", "&&", "@", ",", ";", ":", ".", "(", ")", "\x7b", "\x7d",
    "[", "]", "<", ">", "+", "-", "*", "!", "?"]

/-- The text of a string literal after its opening quote, and what follows. -/
def takeLiteral : List Char → Option (List Char × List Char)
  | [] => none
  | '"' :: rest => some ([], rest)
  | '\\' :: c :: rest =>
    if c = '\n' then none else (takeLiteral rest).map fun (s, r) => ('\\' :: c :: s, r)
  | c :: rest =>
    if c = '\\' then none else (takeLiteral rest).map fun (s, r) => (c :: s, r)

theorem length_of_takeLiteral {cs s rest : List Char} (h : takeLiteral cs = some (s, rest)) :
    rest.length < cs.length := by
  fun_induction takeLiteral cs generalizing s with
  | case1 | case3 | case5 => simp at h
  | case2 => simp_all
  | case4 _ tail _ ih | case6 _ tail _ _ _ ih =>
    obtain ⟨⟨t, r'⟩, h', he⟩ := Option.map_eq_some_iff.1 h
    simp only [Prod.mk.injEq] at he
    have := ih (he.2 ▸ h')
    simp only [List.length_cons]
    omega

/-- The tokens of a text. -/
def tokensOf? : List Char → Option (List Token)
  | [] => some []
  | c :: rest =>
    if isBlank c then tokensOf? rest
    else if c = '/' then
      match rest with
      | '/' :: comment =>
        have := (List.dropWhile_sublist (l := comment) (fun c => c != '\n' && c != '\r')).length_le
        tokensOf? (comment.dropWhile fun c => c != '\n' && c != '\r')
      | _ => none
    else if isIdentStart c then
      have := (List.dropWhile_sublist (l := rest) isIdentPart).length_le
      (tokensOf? (rest.dropWhile isIdentPart)).map
        (.ident (String.ofList (c :: rest.takeWhile isIdentPart)) :: ·)
    else if isDigit c then
      have := (List.dropWhile_sublist (l := rest) isDigit).length_le
      (tokensOf? (rest.dropWhile isDigit)).map
        (.number (numeralValue (c :: rest.takeWhile isDigit)) :: ·)
    else if c = '"' then
      match h : takeLiteral rest with
      | none => none
      | some (body, after) =>
        have := length_of_takeLiteral h
        (tokensOf? after).map (.string body :: ·)
    else
      match marks.find? fun m => m.toList.isPrefixOf (c :: rest) with
      | none => none
      | some m => (tokensOf? (rest.drop (m.length - 1))).map (.mark m :: ·)
termination_by cs => cs.length
decreasing_by all_goals simp_all +arith <;> omega

/-- The tokens of a policy text. -/
def tokens? (text : String) : Option (List Token) := tokensOf? text.toList

/-! ## Escapes -/

/-- Whether the escapes of a literal are known; `pattern` allows `\*`. -/
def knowsEscapes (pattern : Bool) : List Char → Bool
  | [] => true
  | '\\' :: 'x' :: high :: low :: rest =>
    (match hexValue? high, hexValue? low with
      | some h, some _ => h < 8
      | _, _ => false) && knowsEscapes pattern rest
  | '\\' :: 'u' :: '\x7b' :: rest =>
    let digits := rest.takeWhile fun c => (hexValue? c).isSome
    let code := digits.foldl (fun n c => 16 * n + (hexValue? c).getD 0) 0
    0 < digits.length && digits.length ≤ 6 && decide code.isValidChar &&
      (match h : rest.drop digits.length with
        | '\x7d' :: after =>
          have : after.length < rest.length := by
            have := congrArg List.length h
            simp only [List.length_drop, List.length_cons] at this
            omega
          knowsEscapes pattern after
        | _ => false)
  | '\\' :: c :: rest =>
    (c == 'n' || c == 'r' || c == 't' || c == '0' || c == '\\' || c == '\'' || c == '"' ||
      (pattern && c == '*')) && knowsEscapes pattern rest
  | c :: rest => c != '\\' && knowsEscapes pattern rest
termination_by cs => cs.length
decreasing_by all_goals simp_all +arith <;> omega

/-- Whether a literal is a text. -/
def isText (body : List Char) : Bool := knowsEscapes false body

/-- Whether a literal is a pattern. -/
def isPattern (body : List Char) : Bool := knowsEscapes true body

end PolicyDialects.Cedar.Language
