import PolicyDialects.Proofs.Cedar.Language.Locality
import PolicyDialects.Proofs.Cedar.Language.Scanning

/-!
# Tokens of documents in the Cedar language

What the entities, words, symbols, literals and gaps of a document are when the
document is read as a text of the Cedar language. An entity may hold the start of
a comment, and a lone carriage return ends a comment of the language but none of
a document; otherwise the tokens of documents are tokens of the language.

Results:

* `TakenIn.sealed`: an entity without comments does not reach into what follows
  it.
* `tokensOf?_symbol`, `tokensOf?_word`, `tokensOf?_literal`: single tokens.
* `tokensOf?_quote`, `isText_quoteBody`: a value in print.
* `tokensOf?_skipSpace`: the gaps between tokens.
-/

namespace PolicyDialects.Cedar.Language

open Text

/-! ## Entities -/

/-- Whether a comment starts in the text, outside of strings. -/
def hasComment : List Char → Bool
  | [] => false
  | c :: cs =>
    if c = '/' then cs.head? == some '/' || hasComment cs
    else if c = '"' then
      match h : takeLiteral cs with
      | none => false
      | some (_, rest) =>
        have := length_of_takeLiteral h
        hasComment rest
    else hasComment cs
termination_by cs => cs.length
decreasing_by all_goals simp_all +arith <;> omega

section

variable {c : Char} {cs s r rest : List Char}

theorem hasComment_string (cs : List Char) :
    hasComment ('"' :: cs) = (takeLiteral cs).any fun p => hasComment p.2 := by
  rw [hasComment.eq_def]
  dsimp only
  rw [if_neg (by decide), if_pos rfl]
  split
  · rename_i h
    rw [h]
    rfl
  · rename_i h
    rw [h]
    rfl

theorem hasComment_slash (cs : List Char) :
    hasComment ('/' :: cs) = (cs.head? == some '/' || hasComment cs) := by
  rw [hasComment.eq_def]
  rfl

theorem hasComment_char (hslash : c ≠ '/') (hquote : c ≠ '"') (cs : List Char) :
    hasComment (c :: cs) = hasComment cs := by
  rw [hasComment.eq_def]
  dsimp only
  rw [if_neg hslash, if_neg hquote]

/-- The text is taken as the characters of an entity in front of the given
one. -/
def TakenIn (rest cs : List Char) : Prop := takeEntityChars (cs ++ rest) = (cs, rest)

theorem TakenIn.tail (h : TakenIn rest (c :: cs)) (hquote : c ≠ '"') :
    endsEntity c = false ∧ TakenIn rest cs := by
  have hends : endsEntity c = false := by
    by_contra hends
    have hstop : EndsEntity (c :: (cs ++ rest)) := by
      rintro _ ⟨⟩
      exact (Bool.not_eq_false _).mp hends
    have hnone := takeEntityChars_stop hstop
    rw [TakenIn, List.cons_append, hnone] at h
    cases h
  refine ⟨hends, ?_⟩
  rw [TakenIn, List.cons_append, takeEntityChars_char hquote hends] at h
  obtain ⟨hfirst, hsecond⟩ := Prod.mk.inj h
  exact Prod.ext (List.cons.inj hfirst).2 hsecond

theorem TakenIn.literal (h : TakenIn rest ('"' :: cs))
    (hs : takeLiteral (cs ++ rest) = some (s, r)) :
    ∃ tail, cs = s ++ '"' :: tail ∧ r = tail ++ rest ∧ TakenIn rest tail := by
  have hliteral : IsLiteral ('"' :: (s ++ ['"'])) :=
    ⟨_, rfl, (closesLiteral_of_takeStringTail (takeStringTail_of_takeLiteral hs)).1⟩
  have hcs := (takeLiteral_append hs).1
  have hsplit : '"' :: cs ++ rest = '"' :: (s ++ ['"']) ++ r := by
    rw [List.cons_append, hcs]
    simp
  rw [TakenIn, hsplit, takeEntityChars_literal hliteral] at h
  obtain ⟨hfirst, hsecond⟩ := Prod.mk.inj h
  have happend := append_takeEntityChars r
  rw [hsecond] at happend
  refine ⟨(takeEntityChars r).1, ?_, happend.symm, ?_⟩
  · rw [← (List.cons.inj hfirst).2]
    simp
  · rw [TakenIn, happend]
    exact Prod.ext rfl hsecond

theorem TakenIn.dropWhile {p : Char → Bool} (hquote : p '"' = false) (hslash : p '/' = false)
    (h : TakenIn rest cs) :
    TakenIn rest (cs.dropWhile p) ∧ hasComment (cs.dropWhile p) = hasComment cs := by
  induction cs with
  | nil => exact ⟨h, rfl⟩
  | cons c cs ih =>
    rw [List.dropWhile_cons]
    split
    · rename_i hp
      have hc : c ≠ '"' := by
        rintro rfl
        rw [hquote] at hp
        cases hp
      have hc' : c ≠ '/' := by
        rintro rfl
        rw [hslash] at hp
        cases hp
      rw [hasComment_char hc' hc]
      exact ih (h.tail hc).2
    · exact ⟨h, rfl⟩

/-- The marks that are no part of an entity. -/
def delimiters : List String := [",", "(", ")", "[", "]", "\x7b", "\x7d", ";"]

/-- No token is a delimiter. -/
def Undelimited (ts : List Token) : Prop := ∀ m ∈ delimiters, Token.mark m ∉ ts

theorem undelimited_nil : Undelimited [] := fun _ _ => List.not_mem_nil

theorem Undelimited.cons {t : Token} {ts : List Token} (h : Undelimited ts)
    (ht : ∀ m ∈ delimiters, t ≠ .mark m) : Undelimited (t :: ts) := by
  intro m hm hmem
  rcases List.mem_cons.mp hmem with heq | hmem
  · exact ht m hm heq.symm
  · exact h m hm hmem

theorem endsToken_of_endsEntity (h : EndsEntity rest) : EndsToken rest := fun c hc => by
  rw [endsToken, h c hc, Bool.or_true]

/-- A mark holds the character that it is found at. -/
theorem mem_of_mark? {m : String} (h : mark? (c :: cs) = some m) : c ∈ m.toList := by
  rcases drop_of_mark? h with ⟨hchars, -⟩ | ⟨d, tail, -, -, hchars, -⟩
  · rw [hchars]
    exact List.mem_cons_self
  · rw [hchars]
    exact List.mem_cons_self

/-- A mark in an entity is no delimiter, and the entity goes on behind it. -/
theorem TakenIn.mark {m : String} (h : TakenIn rest (c :: cs)) (hc : StartsMark c)
    (hm : mark? (c :: cs) = some m) :
    m ∉ delimiters ∧ TakenIn rest (cs.drop (m.length - 1)) ∧
      hasComment (cs.drop (m.length - 1)) = hasComment cs ∧
      (cs ++ rest).drop (m.length - 1) = cs.drop (m.length - 1) ++ rest := by
  obtain ⟨hcends, htail⟩ := h.tail hc.quote
  have hfirst : ∀ m ∈ delimiters, ∀ a ∈ m.toList, endsEntity a = true := by decide
  refine ⟨fun hmem => ?_, ?_⟩
  · rw [hfirst m hmem c (mem_of_mark? hm)] at hcends
    cases hcends
  · rcases drop_of_mark? hm with ⟨hchars, hdrop⟩ | ⟨d, tail, rfl, hd, hchars, hdrop⟩
    · rw [hdrop]
      refine ⟨htail, rfl, ?_⟩
      rw [← String.length_toList, hchars]
      rfl
    · have hne : d ≠ '"' ∧ d ≠ '/' := by
        constructor <;> (rintro rfl; revert hd; decide)
      rw [hdrop]
      refine ⟨(htail.tail hne.1).2, (hasComment_char hne.2 hne.1 tail).symm, ?_⟩
      rw [← String.length_toList, hchars]
      rfl

/-- An entity without comments, in a text of the language, does not reach into
what follows it, and has no delimiter. -/
theorem TakenIn.sealed (h : TakenIn rest cs) (hrest : EndsEntity rest)
    (hcomment : hasComment cs = false) (htokens : (tokensOf? (cs ++ rest)).isSome) :
    isSealed cs = true ∧ ∀ ts, tokensOf? cs = some ts → Undelimited ts := by
  have hends := endsToken_of_endsEntity hrest
  have hcons : ∀ {t : Token} {tail : List Char}, (∀ m ∈ delimiters, t ≠ .mark m) →
      (∀ ts, tokensOf? tail = some ts → Undelimited ts) →
      ∀ ts, (tokensOf? tail).map (t :: ·) = some ts → Undelimited ts := by
    intro t tail ht htail ts hts
    obtain ⟨us, hus, rfl⟩ := Option.map_eq_some_iff.mp hts
    exact (htail us hus).cons ht
  induction cs using scan_induct with
  | nil =>
    refine ⟨by rw [isSealed.eq_def], fun ts hts => ?_⟩
    rw [tokensOf?_nil] at hts
    exact Option.some.inj hts ▸ undelimited_nil
  | blank cs hblank ih =>
    obtain ⟨hslash, hquote⟩ := isBlank_plain hblank
    rw [List.cons_append, tokensOf?_blank hblank] at htokens
    rw [hasComment_char hslash hquote] at hcomment
    rw [isSealed_char hslash hquote, tokensOf?_blank hblank]
    exact ih (h.tail hquote).2 hcomment htokens
  | comment cs =>
    rw [hasComment_slash] at hcomment
    cases hcomment
  | @slash cs hhead =>
    rw [List.cons_append, tokensOf?_slash] at htokens
    · cases htokens
    · cases cs with
      | nil => exact fun hslash => (endsToken_plain (hends '/' hslash)).2.1 rfl
      | cons d cs => simpa using hhead
  | ident cs hident ih =>
    obtain ⟨-, hslash, hquote⟩ := isIdentStart_plain hident
    have hspan := span_append (stops_of_endsToken hends fun _ => id) cs
    rw [List.cons_append, tokensOf?_ident hident, Option.isSome_map, hspan.2] at htokens
    rw [hasComment_char hslash hquote] at hcomment
    obtain ⟨htail, hsame⟩ := (h.tail hquote).2.dropWhile (p := isIdentPart) rfl rfl
    obtain ⟨hsealed, hfree⟩ := ih htail (hsame.trans hcomment) htokens
    rw [isSealed_char hslash hquote, ← isSealed_dropWhile (p := isIdentPart) rfl rfl,
      tokensOf?_ident hident]
    exact ⟨hsealed, hcons (by simp) hfree⟩
  | number cs hdigit ih =>
    obtain ⟨-, -, hslash, hquote⟩ := isDigit_plain hdigit
    have hstops : Stops isDigit rest := stops_of_endsToken hends isIdentPart_of_isDigit
    have hspan := span_append hstops cs
    rw [List.cons_append, tokensOf?_number hdigit, Option.isSome_map, hspan.2] at htokens
    rw [hasComment_char hslash hquote] at hcomment
    obtain ⟨htail, hsame⟩ := (h.tail hquote).2.dropWhile (p := isDigit) rfl rfl
    obtain ⟨hsealed, hfree⟩ := ih htail (hsame.trans hcomment) htokens
    rw [isSealed_char hslash hquote, ← isSealed_dropWhile (p := isDigit) rfl rfl,
      tokensOf?_number hdigit]
    exact ⟨hsealed, hcons (by simp) hfree⟩
  | string cs ih =>
    rw [List.cons_append, tokensOf?_string] at htokens
    cases hliteral : takeLiteral (cs ++ rest) with
    | none =>
      rw [hliteral] at htokens
      cases htokens
    | some p =>
      obtain ⟨body, r⟩ := p
      rw [hliteral, Option.bind_some, Option.isSome_map] at htokens
      obtain ⟨tail, rfl, rfl, htail⟩ := h.literal hliteral
      have hown := (takeLiteral_append hliteral).2 tail
      rw [hasComment_string, hown] at hcomment
      obtain ⟨hsealed, hfree⟩ := ih body tail hown htail hcomment htokens
      rw [isSealed_string, tokensOf?_string, hown]
      exact ⟨hsealed, hcons (by simp) hfree⟩
  | mark cs hmark ih =>
    rw [List.cons_append, tokensOf?_mark hmark, mark?_append hends] at htokens
    rw [hasComment_char hmark.slash hmark.quote] at hcomment
    rw [isSealed_char hmark.slash hmark.quote, tokensOf?_mark hmark]
    cases hm : mark? (_ :: cs) with
    | none =>
      rw [hm] at htokens
      cases htokens
    | some m =>
      obtain ⟨hplain, htail, hsame, happend⟩ := h.mark hmark hm
      rw [hm, Option.bind_some, Option.isSome_map, happend] at htokens
      obtain ⟨hsealed, hfree⟩ := ih m hm htail (hsame.trans hcomment) htokens
      rw [Option.bind_some, ← isSealed_drop_of_mark? hm]
      exact ⟨hsealed, hcons (by rintro m' hm' ⟨⟩; exact hplain hm') hfree⟩

end

/-! ## Tokens of documents -/

section

variable {cs rest : List Char}

/-- The marks of documents, and braces. -/
def symbols : List String := ["@", "(", ")", ",", "==", "[", "]", ";", "\x7b", "\x7d"]

theorem tokensOf?_symbol {s : String} (hs : s ∈ symbols) (rest : List Char) :
    tokensOf? (s.toList ++ rest) = (tokensOf? rest).map (.mark s :: ·) := by
  have hmark : ∀ {c cs}, StartsMark c → s.toList = c :: cs → mark? (c :: (cs ++ rest)) = some s →
      tokensOf? (s.toList ++ rest) = (tokensOf? rest).map (.mark s :: ·) := by
    intro c cs hc hchars hm
    have hlength : s.length - 1 = cs.length := by
      rw [← String.length_toList, hchars]
      rfl
    rw [hchars, List.cons_append, tokensOf?_mark hc, hm, Option.bind_some, hlength, List.drop_left]
  have hstarts : ∀ c ∈ ['@', '(', ')', ',', '=', '[', ']', ';', '\x7b', '\x7d'],
      isBlank c = false ∧ c ≠ '/' ∧ isIdentStart c = false ∧ isDigit c = false ∧ c ≠ '"' := by
    decide
  have hstart : ∀ {c}, c ∈ ['@', '(', ')', ',', '=', '[', ']', ';', '\x7b', '\x7d'] →
      StartsMark c := fun hc =>
    have ⟨hblank, hslash, hident, hdigit, hquote⟩ := hstarts _ hc
    ⟨hblank, hslash, hident, hdigit, hquote⟩
  simp only [symbols, List.mem_cons, List.not_mem_nil, or_false] at hs
  rcases hs with rfl | rfl | rfl | rfl | rfl | rfl | rfl | rfl | rfl | rfl <;>
    exact hmark (hstart (by decide)) rfl rfl

theorem tokensOf?_word {w : List Char} (hstart : ∃ c cs, w = c :: cs ∧ isIdentStart c = true)
    (hw : ∀ c ∈ w, isIdentPart c = true) (rest : List Char) :
    tokensOf? (w ++ rest) = (tokensOf? (rest.dropWhile isIdentPart)).map
      (.ident (String.ofList (w ++ rest.takeWhile isIdentPart)) :: ·) := by
  obtain ⟨c, cs, rfl, hc⟩ := hstart
  have hcs : ∀ c ∈ cs, isIdentPart c = true := fun c hc => hw c (List.mem_cons_of_mem _ hc)
  rw [List.cons_append, tokensOf?_ident hc, List.dropWhile_append_of_pos hcs,
    List.takeWhile_append_of_pos hcs]
  rfl

theorem tokensOf?_literal {literal : List Char} (h : IsLiteral literal) {ts : List Token}
    (htokens : tokensOf? (literal ++ rest) = some ts) :
    ∃ body us, ts = .string body :: us ∧ tokensOf? rest = some us := by
  obtain ⟨tail, rfl, htail⟩ := h
  rw [List.cons_append, tokensOf?_string] at htokens
  obtain ⟨⟨body, r⟩, hbody, hmore⟩ := Option.bind_eq_some_iff.mp htokens
  obtain ⟨us, hus, rfl⟩ := Option.map_eq_some_iff.mp hmore
  have hown := takeStringTail_of_takeLiteral hbody
  rw [takeStringTail_append htail] at hown
  obtain ⟨-, rfl⟩ := Prod.mk.inj (Option.some.inj hown)
  exact ⟨body, us, rfl, hus⟩

theorem takeLiteral_quoteBody (cs rest : List Char) :
    takeLiteral (quoteBody cs ++ '"' :: rest) = some (quoteBody cs, rest) := by
  refine quoteBody_induction (motive := fun s => takeLiteral (s ++ '"' :: rest) = some (s, rest))
    rfl ?_ ?_ cs
  · intro c s hquote hslash ih
    rw [List.cons_append, takeLiteral_char hquote hslash, ih]
    rfl
  · intro e s he ih
    rw [List.cons_append, List.cons_append, takeLiteral_escape he, ih]
    rfl

theorem tokensOf?_quote (s : String) (rest : List Char) :
    tokensOf? ((quote s).toList ++ rest) =
      (tokensOf? rest).map (.string (quoteBody s.toList) :: ·) := by
  rw [toList_quote, List.cons_append, List.append_assoc, List.singleton_append, tokensOf?_string,
    takeLiteral_quoteBody, Option.bind_some]

/-- The control characters that have an escape in the language. -/
def Escapable (cs : List Char) : Prop := ∀ c ∈ cs, isControl c = true → c ∈ ['\n', '\r', '\t']

instance (cs : List Char) : Decidable (Escapable cs) :=
  inferInstanceAs (Decidable (∀ c ∈ cs, isControl c = true → c ∈ ['\n', '\r', '\t']))

theorem knowsEscapes_char {c : Char} (hc : c ≠ '\\') (pattern : Bool) (cs : List Char) :
    knowsEscapes pattern (c :: cs) = knowsEscapes pattern cs := by
  rw [knowsEscapes.eq_def]
  split
  · rename_i heq
    cases heq
  · rename_i heq
    exact absurd (List.cons.inj heq).1 hc
  · rename_i heq
    exact absurd (List.cons.inj heq).1 hc
  · rename_i heq
    exact absurd (List.cons.inj heq).1 hc
  · rename_i heq
    obtain ⟨rfl, rfl⟩ := List.cons.inj heq
    rw [bne_iff_ne.mpr hc, Bool.true_and]

theorem knowsEscapes_escape {e : Char} (he : e ∈ ['"', '\\', 'n', 'r', 't']) (pattern : Bool)
    (cs : List Char) : knowsEscapes pattern ('\\' :: e :: cs) = knowsEscapes pattern cs := by
  simp only [List.mem_cons, List.not_mem_nil, or_false] at he
  rw [knowsEscapes.eq_def]
  rcases he with rfl | rfl | rfl | rfl | rfl <;> exact Bool.true_and _

theorem isText_quoteBody {cs : List Char} (h : Escapable cs) : isText (quoteBody cs) = true := by
  induction cs with
  | nil => rw [isText, quoteBody_nil, knowsEscapes.eq_def]
  | cons c cs ih =>
    have htail := ih fun d hd => h d (List.mem_cons_of_mem _ hd)
    rw [isText] at htail ⊢
    rw [quoteBody_cons]
    rcases quoteChar_cases c with ⟨hq, -, hslash, -⟩ | ⟨e, hq, he⟩ | ⟨hc, hq⟩
    · rw [hq, List.singleton_append, knowsEscapes_char hslash, htail]
    · have hmem : e ∈ ['"', '\\', 'n', 'r', 't'] := by
        simp only [List.mem_cons, Prod.mk.injEq, List.not_mem_nil, or_false] at he ⊢
        rcases he with he | he | he | he | he <;> simp [he.1]
      rw [hq, List.cons_append, List.singleton_append, knowsEscapes_escape hmem, htail]
    · -- the escapable characters have an escape of one letter
      have hmem := h c List.mem_cons_self hc
      have hshort : ∀ c ∈ ['\n', '\r', '\t'], (quoteChar c).length = 2 := by decide
      have hlength := hshort c hmem
      rw [hq] at hlength
      cases hlength

end

/-! ## Space between tokens -/

section

variable {cs line rest : List Char}

/-- Behind `//` a carriage return stands only at the end of a line. -/
def KeepsLines (cs : List Char) : Prop :=
  ∀ front line rest, cs = front ++ '/' :: '/' :: (line ++ '\r' :: rest) → '\n' ∉ line →
    ∀ c ∈ rest.head?, c = '\n'

theorem KeepsLines.suffix {f : List Char} (h : KeepsLines (f ++ cs)) : KeepsLines cs := by
  rintro more line rest rfl
  exact h (f ++ more) line rest (List.append_assoc _ _ _).symm

theorem keepsLines_of_not_mem (h : '\r' ∉ cs) : KeepsLines cs := by
  rintro front line rest rfl
  simp at h

/-- Both ends of a comment are the same. -/
theorem tokensOf?_line (hline : '\n' ∉ line) (hrest : ∀ c ∈ rest.head?, c = '\n')
    (hlines : ∀ line' r, line ++ rest = line' ++ '\r' :: r → '\n' ∉ line' →
      ∀ c ∈ r.head?, c = '\n') :
    tokensOf? ((line ++ rest).dropWhile inLine) = tokensOf? rest := by
  induction line with
  | nil =>
    rw [List.nil_append]
    cases rest with
    | nil => rfl
    | cons c rest =>
      obtain rfl := hrest c rfl
      rfl
  | cons c line ih =>
    obtain ⟨hc, htail⟩ := not_or.mp (List.mem_cons.not.mp hline)
    by_cases hreturn : c = '\r'
    · subst hreturn
      have hnil : line = [] := by
        cases line with
        | nil => rfl
        | cons d line =>
          have hd := hlines [] _ rfl List.not_mem_nil d rfl
          rw [hd] at htail
          exact (htail List.mem_cons_self).elim
      subst hnil
      have hstop : (['\r'] ++ rest).dropWhile inLine = '\r' :: rest := rfl
      rw [hstop, tokensOf?_blank (by decide)]
    · have hin : inLine c = true := by
        simp [inLine, Ne.symm hc, hreturn]
      rw [List.cons_append, List.dropWhile_cons_of_pos hin]
      refine ih htail fun line' r heq hline' => ?_
      exact hlines (c :: line') r (by rw [List.cons_append, List.cons_append, heq])
        (List.mem_cons.not.mpr (not_or.mpr ⟨hc, hline'⟩))

theorem skipComment_line (hline : '\n' ∉ line) (hrest : ∀ c ∈ rest.head?, c = '\n') :
    skipSpace.skipComment (line ++ rest) = skipSpace rest := by
  induction line with
  | nil =>
    cases rest with
    | nil => rfl
    | cons c rest =>
      obtain rfl := hrest c rfl
      rfl
  | cons c line ih =>
    obtain ⟨hc, hline⟩ := not_or.mp (List.mem_cons.not.mp hline)
    rw [List.cons_append, skipSpace.skipComment, if_neg (Ne.symm hc), ih hline]

/-- Space between the tokens of documents is space between the tokens of the
language. -/
theorem tokensOf?_skipSpace (h : KeepsLines cs) :
    tokensOf? (skipSpace cs) = tokensOf? cs ∧ KeepsLines (skipSpace cs) := by
  induction hn : cs.length using Nat.strongRecOn generalizing cs with
  | ind n ih =>
  subst hn
  cases cs with
  | nil => exact ⟨rfl, h⟩
  | cons c cs =>
    by_cases hspace : isSpace c = true
    · have hblank : isBlank c = true := by
        simp only [isSpace, Bool.or_eq_true, beq_iff_eq] at hspace
        rcases hspace with ((rfl | rfl) | rfl) | rfl <;> decide
      rw [skipSpace_blank hspace, tokensOf?_blank hblank]
      exact ih _ (Nat.lt_succ_self _) (h.suffix (f := [c])) rfl
    · rw [skipSpace.eq_def]
      dsimp only
      rw [if_neg hspace]
      split
      · rename_i comment
        obtain ⟨line, rest, rfl, hline, hrest⟩ : ∃ line rest, comment = line ++ rest ∧
            '\n' ∉ line ∧ ∀ c ∈ rest.head?, c = '\n' := by
          refine ⟨_, _, (List.takeWhile_append_dropWhile (p := (· != '\n'))).symm, ?_, ?_⟩
          · intro hmem
            have := List.mem_takeWhile_imp hmem
            simp at this
          · intro c hc
            have hstop := stops_dropWhile (· != '\n') comment c hc
            simpa using hstop
        have hshorter : rest.length < ('/' :: '/' :: (line ++ rest)).length := by
          simp only [List.length_cons, List.length_append]
          omega
        have hlines := tokensOf?_line hline hrest fun line' r heq hline' =>
          h [] line' r (by rw [heq]; rfl) hline'
        obtain ⟨htokens, hkeeps⟩ := ih rest.length hshorter
          (KeepsLines.suffix (f := '/' :: '/' :: line) h) rfl
        rw [skipComment_line hline hrest, tokensOf?_comment, hlines]
        exact ⟨htokens, hkeeps⟩
      · exact ⟨rfl, h⟩

end

end PolicyDialects.Cedar.Language
