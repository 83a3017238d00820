import PolicyDialects.Proofs.Cedar.Lexical

/-!
# Quotes that stay open

A quote in an entity opens a string literal if one of the quotes behind it
closes that, however far away it is, and is an ordinary character otherwise.
Whether an entity with such a quote is read again as it was therefore depends on
all that follows it.

Results:

* `leavesOpen_append`: texts in which no quote closes a literal, put together.
* `takeEntityChars_reread`: an entity that was read in front of one text is read
  in front of another, unless a quote that stayed open is closed there.
* `isBodyText_trimmed`, `IsBodyChars.not_mem_quote`: bodies of clauses are
  bodies without the blanks around them, and hold no quote behind an open one.
-/

namespace PolicyDialects.Cedar

open Text

/-! ## Texts that close no literal -/

/-- No quote of the text closes a literal that was opened in front of it. -/
def LeavesOpen (cs : List Char) : Prop := takeStringTail cs = none

theorem leavesOpen_nil : LeavesOpen [] := rfl

theorem leavesOpen_cons {c : Char} (hquote : c ≠ '"') (hslash : c ≠ '\\') {cs : List Char} :
    LeavesOpen (c :: cs) ↔ LeavesOpen cs := by
  rw [LeavesOpen, takeStringTail, Option.map_eq_none_iff]
  · rfl
  · exact hquote
  · exact fun _ _ h => absurd h hslash

theorem leavesOpen_plain_append {word : List Char} (h : ∀ c ∈ word, c ≠ '"' ∧ c ≠ '\\')
    {cs : List Char} : LeavesOpen (word ++ cs) ↔ LeavesOpen cs := by
  induction word with
  | nil => rfl
  | cons c word ih =>
    obtain ⟨⟨hquote, hslash⟩, hword⟩ := List.forall_mem_cons.mp h
    rw [List.cons_append, leavesOpen_cons hquote hslash, ih hword]

/-- A backslash at the end of the first part hides the character behind it,
which must not matter. -/
theorem leavesOpen_append (cs : List Char) {rest : List Char}
    (h : ∀ c ∈ rest.head?, c ≠ '"' ∧ c ≠ '\\') :
    LeavesOpen (cs ++ rest) ↔ LeavesOpen cs ∧ LeavesOpen rest := by
  fun_induction takeStringTail cs with
  | case1 => exact ⟨fun hrest => ⟨leavesOpen_nil, hrest⟩, fun hboth => hboth.2⟩
  | case2 tail =>
    refine ⟨fun hopen => ?_, fun hopen => ?_⟩
    · cases hopen
    · cases hopen.1
  | case3 c tail ih =>
    have hpair : ∀ ds, LeavesOpen ('\\' :: c :: ds) ↔ LeavesOpen ds := fun ds => by
      rw [LeavesOpen, takeStringTail, Option.map_eq_none_iff, LeavesOpen]
    rw [List.cons_append, List.cons_append, hpair, hpair, ih]
  | case4 c tail hquote hpair ih =>
    by_cases hslash : c = '\\'
    · subst hslash
      obtain rfl : tail = [] := by
        cases tail with
        | nil => rfl
        | cons d tail => exact absurd rfl (hpair d tail rfl)
      cases rest with
      | nil => exact ⟨fun hopen => ⟨hopen, leavesOpen_nil⟩, fun hboth => hboth.1⟩
      | cons d rest =>
        obtain ⟨hquote', hslash'⟩ := h d rfl
        rw [leavesOpen_cons hquote' hslash']
        have hhidden : LeavesOpen ('\\' :: d :: rest) ↔ LeavesOpen rest := by
          rw [LeavesOpen, takeStringTail, Option.map_eq_none_iff, LeavesOpen]
        exact hhidden.trans ⟨fun hopen => ⟨rfl, hopen⟩, fun hboth => hboth.2⟩
    · rw [List.cons_append, leavesOpen_cons hquote hslash, leavesOpen_cons hquote hslash, ih]

/-- The end of a text behind a character that is neither quote nor backslash. -/
theorem LeavesOpen.behind {cs rest : List Char} {c : Char} (hquote : c ≠ '"') (hslash : c ≠ '\\')
    (h : LeavesOpen (cs ++ c :: rest)) : LeavesOpen rest := by
  have hplain : ∀ d ∈ (c :: rest).head?, d ≠ '"' ∧ d ≠ '\\' := by
    rintro d hd
    obtain rfl : c = d := Option.some.inj hd
    exact ⟨hquote, hslash⟩
  exact (leavesOpen_cons hquote hslash).mp ((leavesOpen_append cs hplain).mp h).2

/-- Wherever a literal stands, one of its quotes closes what was opened before. -/
theorem not_leavesOpen_literal (cs : List Char) {s : List Char} (hs : IsLiteral s)
    (rest : List Char) : ¬ LeavesOpen (cs ++ (s ++ rest)) := by
  obtain ⟨tail, rfl, htail⟩ := hs
  fun_induction takeStringTail cs with
  | case1 => exact fun h => by cases h
  | case2 => exact fun h => by cases h
  | case3 c cs ih =>
    rwa [List.cons_append, List.cons_append, LeavesOpen, takeStringTail, Option.map_eq_none_iff]
  | case4 c cs hquote hpair ih =>
    by_cases hslash : c = '\\'
    · subst hslash
      obtain rfl : cs = [] := by
        cases cs with
        | nil => rfl
        | cons d cs => exact absurd rfl (hpair d cs rfl)
      rw [List.singleton_append, List.cons_append, LeavesOpen, takeStringTail,
        takeStringTail_append htail]
      exact fun h => by cases h
    · rwa [List.cons_append, leavesOpen_cons hquote hslash]

/-! ## Space -/

theorem isSpace_plain {c : Char} (h : isSpace c = true) : c ≠ '"' ∧ c ≠ '\\' := by
  constructor <;> rintro rfl <;> cases h

/-- Skipping stops behind a blank, at the end of the text, or where it starts. -/
theorem skipSpace_cases (cs : List Char) :
    (skipSpace cs = cs ∨ skipSpace cs = [] ∨
      ∃ before c, isSpace c = true ∧ cs = before ++ c :: skipSpace cs) ∧
    (skipSpace.skipComment cs = [] ∨
      ∃ before c, isSpace c = true ∧ cs = before ++ c :: skipSpace.skipComment cs) := by
  induction hn : cs.length using Nat.strongRecOn generalizing cs with
  | ind n ih =>
  subst hn
  cases cs with
  | nil => exact ⟨.inl rfl, .inl rfl⟩
  | cons c cs =>
    obtain ⟨hspace, hcomment⟩ := ih cs.length (by simp) cs rfl
    have hblank (hc : isSpace c = true) : skipSpace cs = [] ∨
        ∃ before d, isSpace d = true ∧ c :: cs = before ++ d :: skipSpace cs := by
      rcases hspace with hsame | hnil | ⟨before, d, hd, hsplit⟩
      · exact .inr ⟨[], c, hc, by rw [hsame]; rfl⟩
      · exact .inl hnil
      · exact .inr ⟨c :: before, d, hd, congrArg (c :: ·) hsplit⟩
    constructor
    · rw [skipSpace.eq_def]
      dsimp only
      split
      · exact .inr (hblank ‹_›)
      · split
        · rename_i comment _
          have hlength : comment.length < ('/' :: '/' :: comment).length := by
            simp only [List.length_cons]; omega
          rcases (ih comment.length hlength comment rfl).2 with hnil | ⟨before, d, hd, hsplit⟩
          · exact .inr (.inl hnil)
          · exact .inr (.inr ⟨'/' :: '/' :: before, d, hd, congrArg ('/' :: '/' :: ·) hsplit⟩)
        · exact .inl rfl
    · rw [skipSpace.skipComment.eq_def]
      dsimp only
      split
      · exact hblank (by rw [‹c = '\n'›]; rfl)
      · rcases hcomment with hnil | ⟨before, d, hd, hsplit⟩
        · exact .inl hnil
        · exact .inr ⟨c :: before, d, hd, congrArg (c :: ·) hsplit⟩

/-- Skipping blanks and comments closes nothing. -/
theorem LeavesOpen.skipSpace {cs : List Char} (h : LeavesOpen cs) : LeavesOpen (skipSpace cs) := by
  rcases (skipSpace_cases cs).1 with hsame | hnil | ⟨before, c, hc, hsplit⟩
  · rwa [hsame]
  · rw [hnil]
    exact leavesOpen_nil
  · rw [hsplit] at h
    exact h.behind (isSpace_plain hc).1 (isSpace_plain hc).2

/-- Behind blanks and comments a token starts. -/
theorem startsToken_skipSpace (cs : List Char) :
    StartsToken (Cedar.skipSpace cs) ∧ StartsToken (Cedar.skipSpace.skipComment cs) := by
  induction hn : cs.length using Nat.strongRecOn generalizing cs with
  | ind n ih =>
  subst hn
  have hnil : StartsToken [] := ⟨stops_nil _, fun _ h => by cases h⟩
  cases cs with
  | nil => exact ⟨hnil, hnil⟩
  | cons c cs =>
    obtain ⟨hspace, hcomment⟩ := ih cs.length (by simp) cs rfl
    constructor
    · rw [skipSpace.eq_def]
      dsimp only
      split
      · exact hspace
      · rename_i hc
        split
        · rename_i comment
          exact (ih comment.length (by simp only [List.length_cons]; omega) comment rfl).2
        · rename_i hslash
          exact ⟨stops_cons (by simpa using hc) cs, fun rest heq => by
            obtain ⟨rfl, rfl⟩ := List.cons.inj heq
            exact hslash rest rfl rfl⟩
    · rw [skipSpace.skipComment.eq_def]
      dsimp only
      split
      · exact hspace
      · exact hcomment

/-! ## Entities -/

theorem endsEntity_plain {rest : List Char} (h : EndsEntity rest) :
    ∀ c ∈ rest.head?, c ≠ '"' ∧ c ≠ '\\' := by
  intro c hc
  have hends := h c hc
  constructor <;> rintro rfl <;> cases hends

/-- An entity is read up to a delimiter or the end. -/
theorem endsEntity_takeEntityChars (cs : List Char) : EndsEntity (takeEntityChars cs).2 := by
  fun_induction takeEntityChars cs with
  | case1 => exact fun _ h => by cases h
  | case2 c cs s rest hs hlt more r hmore ih =>
    rw [hmore] at ih
    exact ih
  | case3 c cs hs hends =>
    rintro d hd
    obtain rfl : c = d := Option.some.inj hd
    exact hends
  | case4 c cs hs hends more r hmore ih =>
    rw [hmore] at ih
    exact ih

theorem takeEntityChars_quote {cs : List Char} (h : LeavesOpen cs) :
    takeEntityChars ('"' :: cs) = ('"' :: (takeEntityChars cs).1, (takeEntityChars cs).2) := by
  have hnone : takeString ('"' :: cs) = none := by
    rw [takeString, Option.map_eq_none_iff]
    exact h
  rw [takeEntityChars]
  split
  · rename_i heq
    rw [hnone] at heq
    cases heq
  · rw [if_neg (by decide)]

/-- The characters of an entity are read in front of another text as they were
in front of this one. -/
theorem takeEntityChars_reread {cs e rest rest' : List Char} (h : takeEntityChars cs = (e, rest))
    (hends : EndsEntity rest') (hopen : LeavesOpen rest → LeavesOpen rest') :
    takeEntityChars (e ++ rest') = (e, rest') := by
  fun_induction takeEntityChars cs generalizing e with
  | case1 =>
    obtain ⟨rfl, rfl⟩ := Prod.mk.inj h
    exact takeEntityChars_stop hends
  | case2 c cs s tail hs hlt more r hmore ih =>
    obtain ⟨rfl, rfl⟩ := Prod.mk.inj h
    rw [List.append_assoc, takeEntityChars_literal (isLiteral_of_takeString hs).1, ih hmore]
  | case3 c cs =>
    obtain ⟨rfl, rfl⟩ := Prod.mk.inj h
    exact takeEntityChars_stop hends
  | case4 c cs hs hc more r hmore ih =>
    obtain ⟨rfl, rfl⟩ := Prod.mk.inj h
    by_cases hquote : c = '"'
    · subst hquote
      rw [takeString, Option.map_eq_none_iff] at hs
      have hsplit := append_takeEntityChars cs
      rw [hmore] at hsplit
      have hstays := endsEntity_takeEntityChars cs
      rw [hmore] at hstays
      -- nothing closes the quote in the entity, and so nothing does behind it
      have hboth := (leavesOpen_append more (endsEntity_plain hstays)).mp (hsplit ▸ hs)
      have hnew : LeavesOpen (more ++ rest') :=
        (leavesOpen_append more (endsEntity_plain hends)).mpr ⟨hboth.1, hopen hboth.2⟩
      rw [List.cons_append, takeEntityChars_quote hnew, ih hmore]
    · rw [List.cons_append, takeEntityChars_char hquote (by simpa using hc), ih hmore]

/-- An entity that was read behind space is read in front of another text. -/
theorem takeEntity_reread {cs e rest rest' : List Char}
    (h : takeEntity (skipSpace cs) = some (e, rest)) (hends : EndsEntity rest')
    (hopen : LeavesOpen rest → LeavesOpen rest') :
    takeEntity (e ++ rest') = some (e, rest') ∧ StartsToken (e ++ rest') := by
  obtain ⟨hne, hchars⟩ := takeEntity_eq_some_iff.mp h
  have hstarts := (startsToken_skipSpace cs).1
  rw [← append_takeEntityChars (skipSpace cs), hchars] at hstarts
  refine ⟨takeEntity_eq_some_iff.mpr ⟨hne, takeEntityChars_reread hchars hends hopen⟩, ?_⟩
  match e, hne with
  | [c], _ =>
    refine ⟨stops_cons (hstarts.stops c rfl) _, fun tail heq => ?_⟩
    -- a lone slash is followed by a delimiter, which is no slash
    have hslash := hends '/' (by rw [show rest' = '/' :: tail from (List.cons.inj heq).2]; rfl)
    cases hslash
  | c :: d :: e, _ =>
    refine ⟨stops_cons (hstarts.stops c rfl) _, fun tail heq => ?_⟩
    obtain ⟨rfl, htail⟩ := List.cons.inj heq
    obtain ⟨rfl, -⟩ := List.cons.inj htail
    exact hstarts.noComment _ rfl

/-- What an entity leaves open in front of one text, it leaves open in front of
another. -/
theorem LeavesOpen.entity {cs e rest rest' : List Char} (h : takeEntity cs = some (e, rest))
    (hends : EndsEntity rest') (hopen : LeavesOpen rest → LeavesOpen rest')
    (hcs : LeavesOpen cs) : LeavesOpen (e ++ rest') := by
  have hchars := (takeEntity_eq_some_iff.mp h).2
  have hstays := endsEntity_takeEntityChars cs
  rw [← append_takeEntityChars cs, hchars] at hcs
  rw [hchars] at hstays
  have hboth := (leavesOpen_append e (endsEntity_plain hstays)).mp hcs
  exact (leavesOpen_append e (endsEntity_plain hends)).mpr ⟨hboth.1, hopen hboth.2⟩

/-! ## Bodies -/

theorem append_of_takeClosing {level : Nat} {cs s rest : List Char}
    (h : takeClosing level cs = some (s, rest)) : s ++ rest = cs := by
  fun_induction takeClosing level cs generalizing s with
  | case1 => cases h
  | case3 => cases h
  | case2 level cs s' tail hs hlt ih =>
    obtain ⟨⟨more, r⟩, hmore, heq⟩ := Option.map_eq_some_iff.1 h
    obtain ⟨rfl, rfl⟩ := Prod.mk.inj heq
    obtain ⟨-, rfl⟩ := closesLiteral_of_takeStringTail hs
    rw [List.cons_append, List.cons_append, List.append_assoc, ih hmore]
  | case4 _ _ ih | case7 _ _ ih | case8 _ _ _ _ _ _ ih =>
    obtain ⟨⟨more, r⟩, hmore, heq⟩ := Option.map_eq_some_iff.1 h
    obtain ⟨rfl, rfl⟩ := Prod.mk.inj heq
    rw [List.cons_append, ih hmore]
  | case5 cs | case6 cs =>
    obtain ⟨rfl, rfl⟩ := Prod.mk.inj (Option.some.inj h)
    rfl

/-- What a body takes and leaves is the text. -/
theorem append_takeBody (cs : List Char) : (takeBody cs).1 ++ (takeBody cs).2 = cs := by
  fun_induction takeBody cs with
  | case1 => rfl
  | case2 c cs s rest hs hlt more r hmore ih =>
    rw [hmore] at ih
    rw [(isLiteral_of_takeString hs).2, List.append_assoc, ← ih]
  | case3 c cs hs s rest hgroup hlt more r hmore ih =>
    rw [hmore] at ih
    have hsplit : s ++ rest = c :: cs := by
      unfold takeGroup at hgroup
      split at hgroup
      · rename_i tail heq
        obtain ⟨⟨t, q⟩, hclosing, hpair⟩ := Option.map_eq_some_iff.1 hgroup
        obtain ⟨rfl, rfl⟩ := Prod.mk.inj hpair
        rw [heq, List.cons_append, append_of_takeClosing hclosing]
      · cases hgroup
    rw [← hsplit, List.append_assoc, ← ih]
  | case4 => rfl
  | case5 c cs hs hgroup hc more r hmore ih =>
    rw [hmore] at ih
    rw [List.cons_append, ← ih]

/-- A quote in a body belongs to a literal in it. -/
theorem IsBodyChars.exists_literal {cs : List Char} (h : IsBodyChars cs) (hquote : '"' ∈ cs) :
    ∃ before s after, IsLiteral s ∧ cs = before ++ (s ++ after) := by
  induction h with
  | nil => cases hquote
  | @literal s cs hs _ _ => exact ⟨[], s, cs, hs, rfl⟩
  | @group s cs _ _ ihs ih =>
    rcases List.mem_cons.mp hquote with heq | hmem
    · cases heq
    rcases List.mem_append.mp hmem with hmem | hmem
    · obtain ⟨before, l, after, hl, rfl⟩ := ihs hmem
      exact ⟨'\x7b' :: before, l, after ++ '\x7d' :: cs, hl, by simp⟩
    rcases List.mem_cons.mp hmem with heq | hmem
    · cases heq
    obtain ⟨before, l, after, hl, rfl⟩ := ih hmem
    exact ⟨'\x7b' :: (s ++ '\x7d' :: before), l, after, hl, by simp⟩
  | @char c cs hne _ _ _ ih =>
    rcases List.mem_cons.mp hquote with heq | hmem
    · exact absurd heq.symm hne
    · obtain ⟨before, l, after, hl, rfl⟩ := ih hmem
      exact ⟨c :: before, l, after, hl, rfl⟩

/-- Behind an open quote, a body has no quotes. -/
theorem IsBodyChars.not_mem_quote {cs : List Char} (h : IsBodyChars cs) (hopen : LeavesOpen cs) :
    '"' ∉ cs := by
  intro hquote
  obtain ⟨before, s, after, hs, rfl⟩ := h.exists_literal hquote
  exact not_leavesOpen_literal before hs after hopen

/-- A text without quotes closes nothing. -/
theorem leavesOpen_of_not_mem {cs : List Char} (h : '"' ∉ cs) : LeavesOpen cs := by
  fun_induction takeStringTail cs with
  | case1 => exact leavesOpen_nil
  | case2 => exact absurd List.mem_cons_self h
  | case3 c cs ih =>
    rw [LeavesOpen, takeStringTail, Option.map_eq_none_iff]
    exact ih fun hmem => h (List.mem_cons_of_mem _ (List.mem_cons_of_mem _ hmem))
  | case4 c cs hquote hpair ih =>
    rw [LeavesOpen, takeStringTail, Option.map_eq_none_iff]
    · exact ih fun hmem => h (List.mem_cons_of_mem _ hmem)
    · exact hquote
    · exact hpair

theorem ClosesLiteral.exists_concat {cs : List Char} (h : ClosesLiteral cs) :
    ∃ front, cs = front ++ ['"'] := by
  induction h with
  | close => exact ⟨[], rfl⟩
  | escape c _ ih =>
    obtain ⟨front, rfl⟩ := ih
    exact ⟨'\\' :: c :: front, rfl⟩
  | @char c _ _ _ _ ih =>
    obtain ⟨front, rfl⟩ := ih
    exact ⟨c :: front, rfl⟩

/-- Blanks in front of a body are no part of a literal or group. -/
theorem IsBodyChars.dropWhile {cs : List Char} (h : IsBodyChars cs) :
    IsBodyChars (cs.dropWhile isBlank) := by
  induction h with
  | nil => exact .nil
  | literal hs h =>
    obtain ⟨tail, rfl, htail⟩ := hs
    rw [List.cons_append, List.dropWhile_cons_of_neg (by decide)]
    exact .literal ⟨tail, rfl, htail⟩ h
  | group hs h =>
    rw [List.dropWhile_cons_of_neg (by decide)]
    exact .group hs h
  | @char c cs hquote hopen hclose h ih =>
    rw [List.dropWhile_cons]
    split
    · exact ih
    · exact .char hquote hopen hclose h

/-- A blank at the end of a body is no part of a literal or group. -/
theorem IsBodyChars.of_concat {cs : List Char} {c : Char} (hc : isBlank c = true)
    (h : IsBodyChars (cs ++ [c])) : IsBodyChars cs := by
  generalize htext : cs ++ [c] = ds at h
  induction h generalizing cs with
  | nil => exact absurd htext (by simp)
  | @literal s ds hs _ ih =>
    rcases List.eq_nil_or_concat' ds with rfl | ⟨front, d, rfl⟩
    · obtain ⟨tail, rfl, htail⟩ := hs
      obtain ⟨front, hfront⟩ := htail.exists_concat
      rw [List.append_nil, hfront] at htext
      obtain ⟨-, rfl⟩ := List.append_singleton_inj.mp
        (show cs ++ [c] = ('"' :: front) ++ ['"'] from htext)
      cases hc
    · rw [← List.append_assoc] at htext
      obtain ⟨rfl, rfl⟩ := List.append_singleton_inj.mp htext
      exact .literal hs (ih rfl)
  | @group s ds hs _ _ ih =>
    rcases List.eq_nil_or_concat' ds with rfl | ⟨front, d, rfl⟩
    · obtain ⟨-, rfl⟩ := List.append_singleton_inj.mp
        (show cs ++ [c] = ('\x7b' :: s) ++ ['\x7d'] from htext)
      cases hc
    · have hsplit : cs ++ [c] = '\x7b' :: (s ++ '\x7d' :: front) ++ [d] := by
        rw [htext]; simp
      obtain ⟨rfl, rfl⟩ := List.append_singleton_inj.mp hsplit
      exact .group hs (ih rfl)
  | @char d ds hquote hopen hclose _ ih =>
    rcases List.eq_nil_or_concat' ds with rfl | ⟨front, e, rfl⟩
    · obtain ⟨rfl, -⟩ := List.append_singleton_inj.mp (show cs ++ [c] = [] ++ [d] from htext)
      exact .nil
    · obtain ⟨rfl, rfl⟩ := List.append_singleton_inj.mp
        (show cs ++ [c] = (d :: front) ++ [e] from htext)
      exact .char hquote hopen hclose (ih rfl)

/-- A body without the blanks around it is one. -/
theorem IsBodyChars.trim {cs : List Char} (h : IsBodyChars cs) : IsBodyChars (Text.trim cs) := by
  have hback : ∀ ds, IsBodyChars ds → IsBodyChars (ds.rdropWhile isBlank) := by
    intro ds
    induction ds using List.reverseRecOn with
    | nil => exact id
    | append_singleton ds d ih =>
      intro hds
      rw [List.rdropWhile_concat]
      split
      · exact ih (hds.of_concat ‹_›)
      · exact hds
  exact hback _ h.dropWhile

theorem isBodyText_trimmed {cs : List Char} (h : IsBodyChars cs) :
    IsBodyText (trimmed (String.ofList cs)) := by
  constructor
  · rw [trimmed, String.toList_ofList, String.toList_ofList]
    exact h.trim
  · simp only [trimmed, String.toList_ofList, trim_trim]

end PolicyDialects.Cedar
