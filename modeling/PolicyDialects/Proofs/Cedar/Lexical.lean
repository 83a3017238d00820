import PolicyDialects.Cedar.Lexical
import PolicyDialects.Proofs.Text.Search

/-!
# Shapes of Cedar text that nothing can break

Which texts the lexical functions take whole, whatever stands behind them.

Results:

* `takeString_append`: a complete string literal.
* `isEntityText_iff`: complete literals and characters that neither are quotes
  nor end an entity are read as an entity wherever they stand, and nothing else
  is.
* `isBodyChars_iff`: complete literals, balanced groups in braces and other
  characters are read up to any brace behind them, and nothing else is.
* `isLiteral_quote`, `unescape_quoteBody`: a quoted text is one literal, and
  its value is the text if that has no control character.
-/

namespace PolicyDialects.Cedar

open Text

/-! ## Space -/

/-- What `skipSpace` leaves alone: neither a blank nor a comment starts. -/
structure StartsToken (cs : List Char) : Prop where
  stops : Stops isSpace cs
  noComment : ∀ rest, cs ≠ '/' :: '/' :: rest

theorem startsToken_cons {c : Char} (hspace : isSpace c = false) (hslash : c ≠ '/')
    (cs : List Char) : StartsToken (c :: cs) :=
  ⟨stops_cons hspace cs, fun _ h => hslash (List.cons.inj h).1⟩

theorem skipSpace_of_startsToken {cs : List Char} (h : StartsToken cs) : skipSpace cs = cs := by
  cases cs with
  | nil => rfl
  | cons c cs =>
    have hspace : isSpace c = false := h.stops c rfl
    rw [skipSpace.eq_def]
    dsimp only
    rw [if_neg (by simp [hspace])]
    split
    · exact absurd rfl (h.noComment _)
    · rfl

theorem skipSpace_blank {c : Char} (hc : isSpace c = true) (cs : List Char) :
    skipSpace (c :: cs) = skipSpace cs := by
  rw [skipSpace.eq_def]
  exact if_pos hc

/-- Skipping makes no text longer. -/
theorem length_skipSpace_le (cs : List Char) :
    (skipSpace cs).length ≤ cs.length ∧ (skipSpace.skipComment cs).length ≤ cs.length := by
  induction hn : cs.length using Nat.strongRecOn generalizing cs with
  | ind n ih =>
  subst hn
  cases cs with
  | nil => exact ⟨Nat.le_refl _, Nat.le_refl _⟩
  | cons c cs =>
    have htail := ih cs.length (by simp) cs rfl
    constructor
    · rw [skipSpace.eq_def]
      dsimp only
      split
      · exact Nat.le_succ_of_le htail.1
      · split
        · rename_i comment _
          have hcomment := ih comment.length (by simp only [List.length_cons]; omega) comment rfl
          simp only [List.length_cons]
          omega
        · exact Nat.le_refl _
    · rw [skipSpace.skipComment.eq_def]
      dsimp only
      split
      · exact Nat.le_succ_of_le htail.1
      · exact Nat.le_succ_of_le htail.2

/-! ## Literals -/

/-- The rest of a complete string literal behind its opening quote. -/
inductive ClosesLiteral : List Char → Prop where
  | close : ClosesLiteral ['"']
  | escape (c : Char) {cs : List Char} (h : ClosesLiteral cs) : ClosesLiteral ('\\' :: c :: cs)
  | char {c : Char} {cs : List Char} (hquote : c ≠ '"') (hslash : c ≠ '\\')
      (h : ClosesLiteral cs) : ClosesLiteral (c :: cs)

/-- A complete string literal. -/
def IsLiteral (cs : List Char) : Prop := ∃ tail, cs = '"' :: tail ∧ ClosesLiteral tail

theorem takeStringTail_append {s : List Char} (h : ClosesLiteral s) (rest : List Char) :
    takeStringTail (s ++ rest) = some (s, rest) := by
  induction h with
  | close => rfl
  | @escape c cs _ ih =>
    rw [List.cons_append, List.cons_append, takeStringTail, ih]
    rfl
  | @char c cs hquote hslash _ ih =>
    rw [List.cons_append, takeStringTail, ih]
    · rfl
    · exact fun h => absurd h hquote
    · exact fun _ _ h => absurd h hslash

theorem takeString_append {s : List Char} (h : IsLiteral s) (rest : List Char) :
    takeString (s ++ rest) = some (s, rest) := by
  obtain ⟨tail, rfl, htail⟩ := h
  rw [List.cons_append, takeString, takeStringTail_append htail]
  rfl

theorem takeString_of_ne {c : Char} (h : c ≠ '"') (cs : List Char) :
    takeString (c :: cs) = none := by
  rw [takeString]
  exact fun rest heq => absurd (List.cons.inj heq).1 h

/-- What is taken as the rest of a literal is one. -/
theorem closesLiteral_of_takeStringTail {cs s rest : List Char}
    (h : takeStringTail cs = some (s, rest)) : ClosesLiteral s ∧ cs = s ++ rest := by
  fun_induction takeStringTail cs generalizing s with
  | case1 => cases h
  | case2 tail =>
    obtain ⟨rfl, rfl⟩ := Prod.mk.inj (Option.some.inj h)
    exact ⟨.close, rfl⟩
  | case3 c tail ih =>
    obtain ⟨⟨s', r'⟩, htail, heq⟩ := Option.map_eq_some_iff.1 h
    obtain ⟨rfl, rfl⟩ := Prod.mk.inj heq
    obtain ⟨hs, rfl⟩ := ih htail
    exact ⟨.escape c hs, rfl⟩
  | case4 c tail hquote hslash ih =>
    obtain ⟨⟨s', r'⟩, htail, heq⟩ := Option.map_eq_some_iff.1 h
    obtain ⟨rfl, rfl⟩ := Prod.mk.inj heq
    obtain ⟨hs, rfl⟩ := ih htail
    refine ⟨.char hquote (fun hc => ?_) hs, rfl⟩
    cases hs with
    | close => exact hslash '"' r' hc rfl
    | escape d _ => exact hslash '\\' _ hc rfl
    | char _ _ _ => exact hslash _ _ hc rfl

theorem isLiteral_of_takeString {cs s rest : List Char} (h : takeString cs = some (s, rest)) :
    IsLiteral s ∧ cs = s ++ rest := by
  unfold takeString at h
  split at h
  · obtain ⟨⟨s', r'⟩, htail, heq⟩ := Option.map_eq_some_iff.1 h
    obtain ⟨rfl, rfl⟩ := Prod.mk.inj heq
    obtain ⟨hs, rfl⟩ := closesLiteral_of_takeStringTail htail
    exact ⟨⟨s', rfl, hs⟩, rfl⟩
  · cases h

/-- A quote behind a character that hides nothing closes any literal. -/
theorem isSome_takeStringTail (cs : List Char) : (takeStringTail (cs ++ [')', '"'])).isSome := by
  fun_induction takeStringTail cs with
  | case1 => rfl
  | case2 => rfl
  | case3 c tail ih =>
    rw [List.cons_append, List.cons_append, takeStringTail, Option.isSome_map]
    exact ih
  | case4 c tail hquote hslash ih =>
    by_cases hc : c = '\\'
    · cases tail with
      | nil => rw [hc]; rfl
      | cons d tail => exact absurd rfl (hslash d tail hc)
    · rw [List.cons_append, takeStringTail, Option.isSome_map]
      · exact ih
      · exact hquote
      · exact fun _ _ h => absurd h hc

theorem closesLiteral_quoteBody (cs : List Char) : ClosesLiteral (quoteBody cs ++ ['"']) := by
  refine quoteBody_induction (motive := fun s => ClosesLiteral (s ++ ['"'])) .close ?_ ?_ cs
  · exact fun hquote hslash ih => .char hquote hslash ih
  · exact fun _ ih => .escape _ ih

/-- Characters that stand for themselves, in quotes. -/
theorem isLiteral_plain {cs : List Char} (h : ∀ c ∈ cs, c ≠ '"' ∧ c ≠ '\\') :
    IsLiteral ('"' :: (cs ++ ['"'])) := by
  refine ⟨_, rfl, ?_⟩
  induction cs with
  | nil => exact .close
  | cons c cs ih =>
    obtain ⟨⟨hquote, hslash⟩, hcs⟩ := List.forall_mem_cons.mp h
    exact .char hquote hslash (ih hcs)

theorem isLiteral_quote (s : String) : IsLiteral (quote s).toList :=
  ⟨_, toList_quote s, closesLiteral_quoteBody s.toList⟩

/-- The value of a quoted text without control characters. -/
theorem unescape_quoteBody {cs : List Char} (h : ∀ c ∈ cs, isControl c = false) :
    unescape (quoteBody cs) = cs := by
  induction cs with
  | nil => rfl
  | cons c cs ih =>
    have hcs := ih fun d hd => h d (List.mem_cons_of_mem _ hd)
    have hc := h c List.mem_cons_self
    rw [quoteBody_cons]
    rcases quoteChar_cases c with ⟨hq, -, hslash, -⟩ | ⟨e, hq, he⟩ | ⟨hcontrol, -⟩
    · rw [hq, List.singleton_append, unescape, hcs]
      · exact fun _ _ h => absurd h hslash
      · exact fun h => absurd h hslash
    · rw [hq, List.cons_append, List.singleton_append, unescape, hcs]
      simp only [List.mem_cons, Prod.mk.injEq, List.not_mem_nil, or_false] at he
      -- only the escapes of the quote and the backslash are of printable characters
      rcases he with ⟨rfl, rfl⟩ | ⟨rfl, rfl⟩ | ⟨rfl, rfl⟩ | ⟨rfl, rfl⟩ | ⟨rfl, rfl⟩ <;>
        first | rfl | exact absurd hc (by decide)
    · rw [hc] at hcontrol
      cases hcontrol

theorem stringValue_quote {s : String} (h : ∀ c ∈ s.toList, isControl c = false) :
    stringValue (quote s).toList = s.toList := by
  have hbody : ((quote s).toList.drop 1).dropLast = quoteBody s.toList := by
    rw [toList_quote, List.drop_one, List.tail_cons, List.dropLast_concat]
  rw [stringValue, hbody, unescape_quoteBody h]

/-! ## Entities -/

/-- Complete string literals, and characters that neither are quotes nor end an
entity. -/
inductive IsEntityChars : List Char → Prop where
  | nil : IsEntityChars []
  | literal {s cs : List Char} (hs : IsLiteral s) (h : IsEntityChars cs) : IsEntityChars (s ++ cs)
  | char {c : Char} {cs : List Char} (hquote : c ≠ '"') (hends : endsEntity c = false)
      (h : IsEntityChars cs) : IsEntityChars (c :: cs)

/-- A text that is an entity wherever it stands. -/
structure IsEntityText (entity : String) : Prop where
  ne_nil : entity.toList ≠ []
  chars : IsEntityChars entity.toList
  noComment : ∀ rest, entity.toList ≠ '/' :: '/' :: rest

/-- An entity ends here. -/
abbrev EndsEntity (rest : List Char) : Prop := ∀ c ∈ rest.head?, endsEntity c = true

theorem takeEntityChars_literal {s : List Char} (hs : IsLiteral s) (cs : List Char) :
    takeEntityChars (s ++ cs) = (s ++ (takeEntityChars cs).1, (takeEntityChars cs).2) := by
  have hstring := takeString_append hs cs
  obtain ⟨tail, rfl, -⟩ := hs
  rw [List.cons_append] at hstring ⊢
  rw [takeEntityChars]
  split
  · rename_i s' rest' heq
    rw [hstring] at heq
    obtain ⟨rfl, rfl⟩ := Prod.mk.inj (Option.some.inj heq)
    rfl
  · rename_i heq
    rw [hstring] at heq
    cases heq

theorem takeEntityChars_char {c : Char} (hquote : c ≠ '"') (hends : endsEntity c = false)
    (cs : List Char) :
    takeEntityChars (c :: cs) = (c :: (takeEntityChars cs).1, (takeEntityChars cs).2) := by
  rw [takeEntityChars]
  split
  · rename_i heq
    rw [takeString_of_ne hquote] at heq
    cases heq
  · rw [if_neg (by simp [hends])]

theorem takeEntityChars_stop {rest : List Char} (h : EndsEntity rest) :
    takeEntityChars rest = ([], rest) := by
  cases rest with
  | nil => rw [takeEntityChars]
  | cons c cs =>
    have hends := h c rfl
    have hquote : c ≠ '"' := by
      rintro rfl
      cases hends
    rw [takeEntityChars]
    split
    · rename_i heq
      rw [takeString_of_ne hquote] at heq
      cases heq
    · rw [if_pos hends]

theorem takeEntityChars_append {cs rest : List Char} (h : IsEntityChars cs)
    (hrest : EndsEntity rest) : takeEntityChars (cs ++ rest) = (cs, rest) := by
  induction h with
  | nil => exact takeEntityChars_stop hrest
  | literal hs _ ih => rw [List.append_assoc, takeEntityChars_literal hs, ih]
  | char hquote hends _ ih => rw [List.cons_append, takeEntityChars_char hquote hends, ih]

theorem takeEntity_append {entity : String} (h : IsEntityText entity) {rest : List Char}
    (hrest : EndsEntity rest) :
    takeEntity (entity.toList ++ rest) = some (entity.toList, rest) := by
  rw [takeEntity, takeEntityChars_append h.chars hrest]
  obtain ⟨c, cs, hcs⟩ := List.exists_cons_of_ne_nil h.ne_nil
  rw [hcs]

theorem IsEntityChars.append {cs ds : List Char} (h : IsEntityChars cs) (hds : IsEntityChars ds) :
    IsEntityChars (cs ++ ds) := by
  induction h with
  | nil => exact hds
  | literal hs _ ih => rw [List.append_assoc]; exact .literal hs ih
  | char hquote hends _ ih => exact .char hquote hends ih

theorem isEntityChars_plain {cs : List Char} (h : ∀ c ∈ cs, c ≠ '"' ∧ endsEntity c = false) :
    IsEntityChars cs := by
  induction cs with
  | nil => exact .nil
  | cons c cs ih =>
    obtain ⟨hquote, hends⟩ := h c List.mem_cons_self
    exact .char hquote hends (ih fun d hd => h d (List.mem_cons_of_mem _ hd))

/-- An entity starts a token. -/
theorem startsToken_entity {entity : String} (h : IsEntityText entity) {rest : List Char}
    (hrest : EndsEntity rest) : StartsToken (entity.toList ++ rest) := by
  obtain ⟨hne, hchars, hcomment⟩ := h
  generalize entity.toList = cs at hne hchars hcomment
  cases hchars with
  | nil => exact absurd rfl hne
  | literal hs _ =>
    obtain ⟨tail, rfl, -⟩ := hs
    exact startsToken_cons (by decide) (by decide) _
  | @char c cs hquote hends _ =>
    have hspace : isSpace c = false := by
      simp only [endsEntity, Bool.or_eq_false_iff] at hends
      exact hends.1.1.1.1.1.1.1.1
    refine ⟨stops_cons hspace _, fun tail heq => ?_⟩
    obtain ⟨rfl, htail⟩ := List.cons.inj heq
    cases cs with
    | nil =>
      -- what ends the entity is no slash
      have hslash := hrest '/' (by rw [show rest = '/' :: tail from htail]; rfl)
      cases hslash
    | cons d cs =>
      obtain ⟨rfl, -⟩ := List.cons.inj (show d :: (cs ++ rest) = '/' :: tail from htail)
      exact hcomment cs rfl

/-- A type and an id in quotes. -/
theorem isEntityText_of_isLiteral {type : String}
    (h : ∀ c ∈ type.toList, (c ≠ '"' ∧ endsEntity c = false) ∧ c ≠ '/') {id : String}
    (hid : IsLiteral id.toList) : IsEntityText (type ++ "::" ++ id) := by
  have htext : (type ++ "::" ++ id).toList = type.toList ++ ':' :: ':' :: id.toList := by
    simp
  have hid : IsEntityChars id.toList := by
    have := IsEntityChars.literal hid .nil
    rwa [List.append_nil] at this
  have hcolons : IsEntityChars (':' :: ':' :: id.toList) :=
    .char (by decide) (by decide) (.char (by decide) (by decide) hid)
  have hchars := (isEntityChars_plain fun c hc => (h c hc).1).append hcolons
  refine ⟨?_, ?_, fun rest hcomment => ?_⟩
  · simp [htext]
  · rw [htext]
    exact hchars
  · rw [htext] at hcomment
    cases htype : type.toList with
    | nil =>
      rw [htype] at hcomment
      exact absurd (List.cons.inj hcomment).1 (by decide)
    | cons c cs =>
      rw [htype] at hcomment
      exact (h c (by rw [htype]; exact List.mem_cons_self)).2 (List.cons.inj hcomment).1

/-- A type and a quoted id, whatever the id is. -/
theorem isEntityText_reference {type : String}
    (h : ∀ c ∈ type.toList, (c ≠ '"' ∧ endsEntity c = false) ∧ c ≠ '/') (id : String) :
    IsEntityText (type ++ "::" ++ quote id) :=
  isEntityText_of_isLiteral h (isLiteral_quote id)

/-- A text that is read as it is before anything that ends an entity has the
shape of one. -/
theorem isEntityChars_of_takeEntityChars {cs : List Char}
    (h : ∀ rest, EndsEntity rest → takeEntityChars (cs ++ rest) = (cs, rest)) :
    IsEntityChars cs := by
  induction hn : cs.length using Nat.strongRecOn generalizing cs with
  | ind n ih =>
  cases cs with
  | nil => exact .nil
  | cons c cs =>
    by_cases hquote : c = '"'
    · subst hquote
      obtain ⟨⟨tail, r⟩, htail⟩ := Option.isSome_iff_exists.mp (isSome_takeStringTail cs)
      obtain ⟨hs, hsplit⟩ := closesLiteral_of_takeStringTail htail
      have hliteral : IsLiteral ('"' :: tail) := ⟨tail, rfl, hs⟩
      have hown := h [')', '"'] (by rintro _ ⟨⟩; rfl)
      rw [List.cons_append, hsplit, ← List.cons_append, takeEntityChars_literal hliteral] at hown
      obtain ⟨hcs, -⟩ := Prod.mk.inj hown
      generalize (takeEntityChars r).1 = more at hcs
      rw [← hcs] at h hn ⊢
      refine .literal hliteral (ih more.length ?_ (fun rest hrest => ?_) rfl)
      · rw [← hn, List.length_append, List.length_cons]
        omega
      · have hmore := h rest hrest
        rw [List.append_assoc, takeEntityChars_literal hliteral] at hmore
        obtain ⟨hfirst, hsecond⟩ := Prod.mk.inj hmore
        exact Prod.ext (List.append_cancel_left hfirst) hsecond
    · have hends : endsEntity c = false := by
        by_contra hends
        have hstops : EndsEntity (c :: cs) := by
          rintro _ ⟨⟩
          exact (Bool.not_eq_false _).mp hends
        have hown := h [] (fun _ hd => by cases hd)
        rw [List.append_nil, takeEntityChars_stop hstops] at hown
        cases hown
      refine .char hquote hends (ih cs.length ?_ (fun rest hrest => ?_) rfl)
      · rw [← hn, List.length_cons]
        omega
      · have hmore := h rest hrest
        rw [List.cons_append, takeEntityChars_char hquote hends] at hmore
        obtain ⟨hfirst, hsecond⟩ := Prod.mk.inj hmore
        exact Prod.ext (List.cons.inj hfirst).2 hsecond

theorem append_takeEntityChars (cs : List Char) :
    (takeEntityChars cs).1 ++ (takeEntityChars cs).2 = cs := by
  fun_induction takeEntityChars cs with
  | case1 => rfl
  | case2 c cs s rest hs hlt more r hmore ih =>
    obtain ⟨-, hsplit⟩ := isLiteral_of_takeString hs
    rw [hmore] at ih
    rw [hsplit, List.append_assoc, ← ih]
  | case3 => rfl
  | case4 c cs _ _ more r hmore ih =>
    rw [hmore] at ih
    rw [List.cons_append, ← ih]

theorem takeEntity_eq_some_iff {cs s rest : List Char} :
    takeEntity cs = some (s, rest) ↔ s ≠ [] ∧ takeEntityChars cs = (s, rest) := by
  rw [takeEntity]
  obtain ⟨chars, tail⟩ := takeEntityChars cs
  cases chars with
  | nil =>
    refine ⟨fun h => (by cases h), fun ⟨hne, h⟩ => ?_⟩
    exact absurd (Prod.mk.inj h).1.symm hne
  | cons c chars =>
    refine ⟨fun h => ?_, fun ⟨_, h⟩ => congrArg some h⟩
    obtain ⟨rfl, rfl⟩ := Prod.mk.inj (Option.some.inj h)
    exact ⟨List.cons_ne_nil _ _, rfl⟩

/-- Exactly the texts with the shape of an entity are read as they are wherever
they stand. -/
theorem isEntityText_iff {entity : String} :
    IsEntityText entity ↔ ∀ rest, EndsEntity rest →
      takeEntity (skipSpace (entity.toList ++ rest)) = some (entity.toList, rest) := by
  constructor
  · intro h rest hrest
    rw [skipSpace_of_startsToken (startsToken_entity h hrest), takeEntity_append h hrest]
  · intro h
    have hskip : ∀ rest, EndsEntity rest →
        skipSpace (entity.toList ++ rest) = entity.toList ++ rest := by
      intro rest hrest
      have hchars := (takeEntity_eq_some_iff.mp (h rest hrest)).2
      rw [← append_takeEntityChars (skipSpace _), hchars]
    have hnil : EndsEntity [] := fun _ hd => by cases hd
    refine ⟨(takeEntity_eq_some_iff.mp (h [] hnil)).1, ?_, fun rest hcomment => ?_⟩
    · refine isEntityChars_of_takeEntityChars fun rest hrest => ?_
      have hchars := (takeEntity_eq_some_iff.mp (h rest hrest)).2
      rwa [hskip rest hrest] at hchars
    · have hself := hskip [] hnil
      rw [List.append_nil, hcomment] at hself
      have hlength := (length_skipSpace_le rest).2
      have hlonger := congrArg List.length hself
      rw [show skipSpace ('/' :: '/' :: rest) = skipSpace.skipComment rest from rfl] at hlonger
      simp only [List.length_cons] at hlonger
      omega

/-! ## Bodies -/

/-- Complete string literals, balanced groups in braces, and characters that are
neither quotes nor braces. -/
inductive IsBodyChars : List Char → Prop where
  | nil : IsBodyChars []
  | literal {s cs : List Char} (hs : IsLiteral s) (h : IsBodyChars cs) : IsBodyChars (s ++ cs)
  | group {s cs : List Char} (hs : IsBodyChars s) (h : IsBodyChars cs) :
      IsBodyChars ('\x7b' :: (s ++ '\x7d' :: cs))
  | char {c : Char} {cs : List Char} (hquote : c ≠ '"') (hopen : c ≠ '\x7b') (hclose : c ≠ '\x7d')
      (h : IsBodyChars cs) : IsBodyChars (c :: cs)

/-- A text that is the body of a clause wherever it stands. -/
structure IsBodyText (body : String) : Prop where
  chars : IsBodyChars body.toList
  trimmed : trimmed body = body

theorem IsBodyChars.append {cs ds : List Char} (h : IsBodyChars cs) (hds : IsBodyChars ds) :
    IsBodyChars (cs ++ ds) := by
  induction h with
  | nil => exact hds
  | literal hs _ ih => rw [List.append_assoc]; exact .literal hs ih
  | group hs _ _ ih =>
    rw [List.cons_append, List.append_assoc, List.cons_append]
    exact .group hs ih
  | char hquote hopen hclose _ ih => exact .char hquote hopen hclose ih

theorem isBodyChars_plain {cs : List Char} (h : ∀ c ∈ cs, c ≠ '"' ∧ c ≠ '\x7b' ∧ c ≠ '\x7d') :
    IsBodyChars cs := by
  induction cs with
  | nil => exact .nil
  | cons c cs ih =>
    obtain ⟨hquote, hopen, hclose⟩ := h c List.mem_cons_self
    exact .char hquote hopen hclose (ih fun d hd => h d (List.mem_cons_of_mem _ hd))

theorem takeClosing_literal {s : List Char} (hs : IsLiteral s) (level : Nat) (cs : List Char) :
    takeClosing level (s ++ cs) = (takeClosing level cs).map fun (more, r) => (s ++ more, r) := by
  obtain ⟨tail, rfl, htail⟩ := hs
  have htake := takeStringTail_append htail cs
  rw [List.cons_append, takeClosing]
  split
  · rename_i s' rest' heq
    rw [htake] at heq
    obtain ⟨rfl, rfl⟩ := Prod.mk.inj (Option.some.inj heq)
    rfl
  · rename_i heq
    rw [htake] at heq
    cases heq

/-- What is balanced closes no brace before it. -/
theorem takeClosing_append {s : List Char} (hs : IsBodyChars s) (n : Nat) (cs : List Char) :
    takeClosing (n + 1) (s ++ cs) =
      (takeClosing (n + 1) cs).map fun (more, r) => (s ++ more, r) := by
  induction hs generalizing n cs with
  | nil => simp
  | literal hs _ ih =>
    rw [List.append_assoc, takeClosing_literal hs, ih, Option.map_map]
    simp [Function.comp_def]
  | group _ _ ihs ih =>
    rw [List.cons_append, List.append_assoc, List.cons_append, takeClosing, ihs, takeClosing, ih,
      Option.map_map, Option.map_map, Option.map_map]
    simp [Function.comp_def]
  | char hquote hopen hclose _ ih =>
    rw [List.cons_append, takeClosing, ih, Option.map_map]
    · simp [Function.comp_def]
    · exact hquote
    · exact hopen
    · exact hclose

theorem takeGroup_append {s : List Char} (hs : IsBodyChars s) (cs : List Char) :
    takeGroup ('\x7b' :: (s ++ '\x7d' :: cs)) = some ('\x7b' :: (s ++ ['\x7d']), cs) := by
  rw [takeGroup, takeClosing_append hs 0, takeClosing]
  rfl

theorem takeGroup_of_ne {c : Char} (h : c ≠ '\x7b') (cs : List Char) :
    takeGroup (c :: cs) = none := by
  rw [takeGroup]
  exact fun rest heq => absurd (List.cons.inj heq).1 h

theorem takeBody_literal {s : List Char} (hs : IsLiteral s) (cs : List Char) :
    takeBody (s ++ cs) = (s ++ (takeBody cs).1, (takeBody cs).2) := by
  have hstring := takeString_append hs cs
  obtain ⟨tail, rfl, -⟩ := hs
  rw [List.cons_append] at hstring ⊢
  rw [takeBody]
  split
  · rename_i s' rest' heq
    rw [hstring] at heq
    obtain ⟨rfl, rfl⟩ := Prod.mk.inj (Option.some.inj heq)
    rfl
  · rename_i heq
    rw [hstring] at heq
    cases heq

theorem takeBody_group {s : List Char} (hs : IsBodyChars s) (cs : List Char) :
    takeBody ('\x7b' :: (s ++ '\x7d' :: cs)) =
      ('\x7b' :: (s ++ '\x7d' :: (takeBody cs).1), (takeBody cs).2) := by
  have hstring : takeString ('\x7b' :: (s ++ '\x7d' :: cs)) = none :=
    takeString_of_ne (by decide) _
  have hgroup := takeGroup_append hs cs
  rw [takeBody]
  split
  · rename_i heq
    rw [hstring] at heq
    cases heq
  · split
    · rename_i s' rest' heq
      rw [hgroup] at heq
      obtain ⟨rfl, rfl⟩ := Prod.mk.inj (Option.some.inj heq)
      simp
    · rename_i heq
      rw [hgroup] at heq
      cases heq

/-- Neither a literal nor a group starts here. -/
theorem takeBody_single {c : Char} (hquote : c ≠ '"') (hopen : c ≠ '\x7b') (cs : List Char) :
    takeBody (c :: cs) =
      if c = '\x7d' then ([], c :: cs) else (c :: (takeBody cs).1, (takeBody cs).2) := by
  rw [takeBody]
  split
  · rename_i heq
    rw [takeString_of_ne hquote] at heq
    cases heq
  · split
    · rename_i heq
      rw [takeGroup_of_ne hopen] at heq
      cases heq
    · simp [hquote, hopen]

/-- A body reaches to the brace behind it. -/
theorem takeBody_append {cs : List Char} (h : IsBodyChars cs) (rest : List Char) :
    takeBody (cs ++ '\x7d' :: rest) = (cs, '\x7d' :: rest) := by
  induction h with
  | nil => exact (takeBody_single (by decide) (by decide) rest).trans (if_pos rfl)
  | literal hs _ ih => rw [List.append_assoc, takeBody_literal hs, ih]
  | group hs _ _ ih =>
    rw [List.cons_append, List.append_assoc, List.cons_append, takeBody_group hs, ih]
  | char hquote hopen hclose _ ih =>
    rw [List.cons_append, takeBody_single hquote hopen, if_neg hclose, ih]

/-- Balanced text that closes the given number of braces, one after the other. -/
inductive ClosesBraces : Nat → List Char → Prop where
  | last {cs : List Char} (h : IsBodyChars cs) : ClosesBraces 1 (cs ++ ['\x7d'])
  | more {n : Nat} {cs rest : List Char} (h : IsBodyChars cs) (hrest : ClosesBraces (n + 1) rest) :
      ClosesBraces (n + 2) (cs ++ '\x7d' :: rest)

theorem ClosesBraces.append {n : Nat} {cs rest : List Char} (h : ClosesBraces n rest)
    (hcs : IsBodyChars cs) : ClosesBraces n (cs ++ rest) := by
  cases h with
  | last h => rw [← List.append_assoc]; exact .last (hcs.append h)
  | more h hrest => rw [← List.append_assoc]; exact .more (hcs.append h) hrest

theorem closesBraces_of_takeClosing {n : Nat} {cs s rest : List Char}
    (h : takeClosing (n + 1) cs = some (s, rest)) : ClosesBraces (n + 1) s := by
  generalize hlevel : n + 1 = level at h
  fun_induction takeClosing level cs generalizing n s with
  | case1 => cases h
  | case3 => cases h
  | case2 level cs s' tail hs hlt ih =>
    obtain ⟨⟨more, r⟩, hmore, heq⟩ := Option.map_eq_some_iff.1 h
    obtain ⟨rfl, rfl⟩ := Prod.mk.inj heq
    have hliteral : IsBodyChars ('"' :: s') := by
      have := IsBodyChars.literal ⟨s', rfl, (closesLiteral_of_takeStringTail hs).1⟩ .nil
      rwa [List.append_nil] at this
    exact (ih hlevel hmore).append hliteral
  | case4 level cs ih =>
    obtain ⟨⟨more, r⟩, hmore, heq⟩ := Option.map_eq_some_iff.1 h
    obtain ⟨rfl, rfl⟩ := Prod.mk.inj heq
    obtain rfl := hlevel
    have hinner := ih rfl hmore
    cases hinner with
    | more hbody hrest =>
      have hgroup := hrest.append (.group hbody .nil)
      simpa using hgroup
  | case5 cs =>
    cases hlevel
  | case6 cs =>
    obtain ⟨rfl, rfl⟩ := Prod.mk.inj (Option.some.inj h)
    exact hlevel ▸ .last .nil
  | case7 cs k ih =>
    obtain ⟨⟨more, r⟩, hmore, heq⟩ := Option.map_eq_some_iff.1 h
    obtain ⟨rfl, rfl⟩ := Prod.mk.inj heq
    obtain rfl : n = k + 1 := Nat.succ.inj hlevel
    exact .more .nil (ih rfl hmore)
  | case8 level c cs hquote hopen hclose ih =>
    obtain ⟨⟨more, r⟩, hmore, heq⟩ := Option.map_eq_some_iff.1 h
    obtain ⟨rfl, rfl⟩ := Prod.mk.inj heq
    exact (ih hlevel hmore).append (.char hquote hopen hclose .nil)

theorem isBodyChars_of_takeGroup {cs s rest : List Char} (h : takeGroup cs = some (s, rest)) :
    IsBodyChars s := by
  unfold takeGroup at h
  split at h
  · obtain ⟨⟨more, r⟩, hmore, heq⟩ := Option.map_eq_some_iff.1 h
    obtain ⟨rfl, rfl⟩ := Prod.mk.inj heq
    have hclosing := closesBraces_of_takeClosing (n := 0) hmore
    cases hclosing with
    | last hbody => exact .group hbody .nil
  · cases h

theorem isBodyChars_takeBody (cs : List Char) : IsBodyChars (takeBody cs).1 := by
  fun_induction takeBody cs with
  | case1 => exact .nil
  | case2 c cs s rest hs hlt more r hmore ih =>
    rw [hmore] at ih
    exact .literal (isLiteral_of_takeString hs).1 ih
  | case3 c cs hs s rest hgroup hlt more r hmore ih =>
    rw [hmore] at ih
    exact (isBodyChars_of_takeGroup hgroup).append ih
  | case4 => exact .nil
  | case5 c cs hs hgroup hc more r hmore ih =>
    rw [hmore] at ih
    obtain ⟨hopen, hclose, hquote⟩ := not_or.mp hc |>.imp_right not_or.mp
    exact .char hquote hopen hclose ih

/-- Exactly the balanced texts are read as they are up to any brace behind
them. -/
theorem isBodyChars_iff {cs : List Char} :
    IsBodyChars cs ↔ ∀ rest, takeBody (cs ++ '\x7d' :: rest) = (cs, '\x7d' :: rest) := by
  refine ⟨takeBody_append, fun h => ?_⟩
  have hown := isBodyChars_takeBody (cs ++ ['\x7d'])
  rwa [h []] at hown

/-! ## Words -/

/-- An identifier. -/
def IsIdent (name : String) : Prop :=
  ∃ c cs, name.toList = c :: cs ∧ isIdentStart c = true ∧ ∀ d ∈ cs, isIdentPart d = true

instance : DecidablePred IsIdent := fun name =>
  match hname : name.toList with
  | [] => isFalse fun ⟨_, _, h, _⟩ => List.cons_ne_nil _ _ (h.symm.trans hname)
  | c :: cs =>
    decidable_of_iff (isIdentStart c = true ∧ ∀ d ∈ cs, isIdentPart d = true)
      ⟨fun h => ⟨c, cs, hname, h⟩, fun ⟨_, _, h, hident⟩ => by
        obtain ⟨rfl, rfl⟩ := List.cons.inj (hname.symm.trans h)
        exact hident⟩

theorem takeIdent_append {name : String} (h : IsIdent name) {rest : List Char}
    (hrest : Stops isIdentPart rest) :
    takeIdent (name.toList ++ rest) = some (name.toList, rest) := by
  obtain ⟨c, cs, hname, hc, hcs⟩ := h
  rw [hname, List.cons_append, takeIdent, if_pos hc, takeWhile_append_stops hcs hrest,
    dropWhile_append_stops hcs hrest]

theorem takeKeyword_append {word : String} (h : foldCase word.toList = word.toList)
    (rest : List Char) : takeKeyword word.toList (word.toList ++ rest) = some rest := by
  rw [takeKeyword, List.take_left, List.drop_left, if_pos h]

end PolicyDialects.Cedar
