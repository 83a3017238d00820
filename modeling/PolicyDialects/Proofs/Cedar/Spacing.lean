import PolicyDialects.Proofs.Cedar.Spelling

/-!
# Spacing and comments in documents

White space and comments may be put between any two tokens of a text. Directly
behind an entity a comment needs a blank in front of it, for a slash does not
end an entity. And where an entity in front has an open quote, the comment must
not close it.

Results:

* `Laid`: tokens in front of a point of a text; `LaidOut.exists_laid`: there is one
  between any two tokens.
* `Laid.spaced`: the tokens are still there when space is put in at the point.
* `Document.parse_spaced`: the text is read as the same document.
-/

namespace PolicyDialects.Cedar

open Text

/-! ## Spacing -/

/-- Blanks, and comments with the ends of their lines. -/
inductive IsSpacing : List Char → Prop where
  | nil : IsSpacing []
  | blank {c : Char} {cs : List Char} (hc : isSpace c = true) (h : IsSpacing cs) :
      IsSpacing (c :: cs)
  | comment {text cs : List Char} (htext : '\n' ∉ text) (h : IsSpacing cs) :
      IsSpacing ('/' :: '/' :: (text ++ '\n' :: cs))

theorem skipComment_append {text : List Char} (h : '\n' ∉ text) (cs : List Char) :
    skipSpace.skipComment (text ++ '\n' :: cs) = skipSpace cs := by
  induction text with
  | nil => rfl
  | cons c text ih =>
    obtain ⟨hc, htext⟩ := not_or.mp (List.mem_cons.not.mp h)
    rw [List.cons_append, skipSpace.skipComment, if_neg fun heq => hc heq.symm, ih htext]

section

variable {gap s cs rest : List Char}

theorem IsSpacing.skipSpace_append (h : IsSpacing gap) (cs : List Char) :
    skipSpace (gap ++ cs) = skipSpace cs := by
  induction h with
  | nil => rfl
  | blank hc _ ih => rw [List.cons_append, skipSpace_blank hc, ih]
  | @comment text gap htext _ ih =>
    have hstart : '/' :: '/' :: (text ++ '\n' :: gap) ++ cs =
        '/' :: '/' :: (text ++ '\n' :: (gap ++ cs)) := by simp
    rw [hstart]
    show skipSpace.skipComment (text ++ '\n' :: (gap ++ cs)) = _
    rw [skipComment_append htext, ih]

theorem IsSpacing.append (h : IsSpacing gap) (hs : IsSpacing s) : IsSpacing (gap ++ s) := by
  induction h with
  | nil => exact hs
  | blank hc _ ih => exact .blank hc ih
  | @comment text gap htext _ ih =>
    have hstart : '/' :: '/' :: (text ++ '\n' :: gap) ++ s =
        '/' :: '/' :: (text ++ '\n' :: (gap ++ s)) := by simp
    rw [hstart]
    exact .comment htext ih

/-- Spacing starts with a blank or a slash. -/
theorem IsSpacing.head (h : IsSpacing s) {c : Char} (hc : s.head? = some c) :
    isSpace c = true ∨ c = '/' := by
  cases h with
  | nil => cases hc
  | blank hblank _ => exact .inl (Option.some.inj hc ▸ hblank)
  | comment _ _ => exact .inr (Option.some.inj hc).symm

/-- Spacing ends with a blank. -/
theorem IsSpacing.eq_nil_or_concat (h : IsSpacing s) :
    s = [] ∨ ∃ front c, s = front ++ [c] ∧ isSpace c = true := by
  induction h with
  | nil => exact .inl rfl
  | @blank c cs hc _ ih =>
    rcases ih with rfl | ⟨front, d, rfl, hd⟩
    · exact .inr ⟨[], c, rfl, hc⟩
    · exact .inr ⟨c :: front, d, rfl, hd⟩
  | @comment text cs _ _ ih =>
    rcases ih with rfl | ⟨front, d, rfl, hd⟩
    · exact .inr ⟨'/' :: '/' :: text, '\n', rfl, by decide⟩
    · exact .inr ⟨'/' :: '/' :: (text ++ '\n' :: front), d, by simp, hd⟩

/-- What is skipped in front of a token is spacing. -/
theorem exists_isSpacing (cs : List Char) :
    (skipSpace cs ≠ [] → ∃ gap, IsSpacing gap ∧ cs = gap ++ skipSpace cs) ∧
      (skipSpace.skipComment cs ≠ [] → ∃ text gap, '\n' ∉ text ∧ IsSpacing gap ∧
        cs = text ++ '\n' :: (gap ++ skipSpace.skipComment cs)) := by
  induction hn : cs.length using Nat.strongRecOn generalizing cs with
  | ind n ih =>
  subst hn
  cases cs with
  | nil => exact ⟨fun h => absurd rfl h, fun h => absurd rfl h⟩
  | cons c cs =>
    obtain ⟨hspace, hcomment⟩ := ih cs.length (by simp) cs rfl
    constructor
    · rw [skipSpace.eq_def]
      dsimp only
      split
      · intro hne
        obtain ⟨gap, hgap, hcs⟩ := hspace hne
        exact ⟨c :: gap, .blank ‹_› hgap, congrArg (c :: ·) hcs⟩
      · split
        · rename_i comment _
          intro hne
          have hlength : comment.length < ('/' :: '/' :: comment).length := by
            simp only [List.length_cons]; omega
          obtain ⟨text, gap, htext, hgap, hcs⟩ := (ih comment.length hlength comment rfl).2 hne
          refine ⟨'/' :: '/' :: (text ++ '\n' :: gap), .comment htext hgap, ?_⟩
          conv_lhs => rw [hcs]
          simp
        · exact fun _ => ⟨[], .nil, rfl⟩
    · rw [skipSpace.skipComment.eq_def]
      dsimp only
      split
      · rename_i hc
        intro hne
        obtain ⟨gap, hgap, hcs⟩ := hspace hne
        exact ⟨[], gap, List.not_mem_nil, hgap, by rw [hc]; exact congrArg ('\n' :: ·) hcs⟩
      · rename_i hc
        intro hne
        obtain ⟨text, gap, htext, hgap, hcs⟩ := hcomment hne
        refine ⟨c :: text, gap, ?_, hgap, congrArg (c :: ·) hcs⟩
        exact List.mem_cons.not.mpr (not_or.mpr ⟨fun heq => hc heq.symm, htext⟩)

end

/-! ## Spacing in front of an open quote -/

/-- Spacing that closes nothing may be put in wherever no hidden character gets
out. -/
theorem LeavesOpen.spaced {before after s : List Char} (h : LeavesOpen (before ++ after))
    (hs : IsSpacing s) (hopen : LeavesOpen s)
    (hhidden : before.getLast? = some '\\' → ∀ d ∈ after.head?, d ≠ '"' ∧ d ≠ '\\') :
    LeavesOpen (before ++ (s ++ after)) := by
  -- spacing hides nothing: its last character is a blank
  have hfront : ∀ {cs}, LeavesOpen cs → LeavesOpen (s ++ cs) := by
    intro cs hcs
    rcases hs.eq_nil_or_concat with rfl | ⟨front, c, rfl, hc⟩
    · exact hcs
    · obtain ⟨hquote, hslash⟩ := isSpace_plain hc
      have hplain : ∀ ds : List Char, ∀ d ∈ (c :: ds).head?, d ≠ '"' ∧ d ≠ '\\' := by
        rintro ds d ⟨⟩
        exact ⟨hquote, hslash⟩
      have hsplit := (leavesOpen_append front (hplain [])).mp hopen
      rw [List.append_assoc, List.singleton_append, leavesOpen_append front (hplain _),
        leavesOpen_cons hquote hslash]
      exact ⟨hsplit.1, hcs⟩
  fun_induction takeStringTail before with
  | case1 => exact hfront h
  | case2 => cases h
  | case3 c tail ih =>
    have hpair : ∀ ds, LeavesOpen ('\\' :: c :: ds) ↔ LeavesOpen ds := fun ds => by
      rw [LeavesOpen, takeStringTail, Option.map_eq_none_iff, LeavesOpen]
    rw [List.cons_append, List.cons_append, hpair] at h ⊢
    refine ih h fun hlast => hhidden ?_
    rw [List.getLast?_cons_cons, List.getLast?_cons, hlast]
    rfl
  | case4 c tail hquote hpair ih =>
    by_cases hslash : c = '\\'
    · subst hslash
      obtain rfl : tail = [] := by
        cases tail with
        | nil => rfl
        | cons d tail => exact absurd rfl (hpair d tail rfl)
      have hescape : ∀ d ds, LeavesOpen ('\\' :: d :: ds) ↔ LeavesOpen ds := fun d ds => by
        rw [LeavesOpen, takeStringTail, Option.map_eq_none_iff, LeavesOpen]
      have hafter : LeavesOpen after := by
        cases after with
        | nil => exact leavesOpen_nil
        | cons d after =>
          obtain ⟨hquote', hslash'⟩ := hhidden rfl d rfl
          exact (leavesOpen_cons hquote' hslash').mpr ((hescape d after).mp h)
      cases s with
      | nil => exact h
      | cons x s =>
        have hx : x ≠ '"' ∧ x ≠ '\\' := by
          rcases hs.head rfl with hblank | rfl
          · exact isSpace_plain hblank
          · decide
        exact (hescape x _).mpr ((leavesOpen_cons hx.1 hx.2).mp (hfront hafter))
    · rw [List.cons_append, leavesOpen_cons hquote hslash] at h ⊢
      refine ih h fun hlast => hhidden ?_
      rw [List.getLast?_cons, hlast]
      rfl

/-! ## Points of a text -/

/-- In front of a point of the text stand the tokens, and the point is between
them and what is behind: in front of each token, and of the point, there is
spacing. -/
inductive Laid : List Token → List Char → List Char → Prop where
  | nil {gap after : List Char} (hgap : IsSpacing gap) : Laid [] gap after
  | cons {t : Token} {ts : List Token} {gap before after : List Char} (hgap : IsSpacing gap)
      (ht : t.Stands (before ++ after)) (h : Laid ts before after) :
      Laid (t :: ts) (gap ++ (t.chars ++ before)) after

/-- A character that no keyword has is not in its spelling. -/
theorem Token.Stands.ne_of_mem {word s : String} {rest : List Char}
    (h : (Token.keyword word s).Stands rest) {c x : Char} (hc : c ∈ s.toList) (hx : x.toLower = x)
    (hfree : ∀ word ∈ Token.keywords, x ∉ word.toList) : c ≠ x := by
  rintro rfl
  refine hfree word h.1 ?_
  rw [← h.2, foldCase, List.mem_map]
  exact ⟨c, hc, hx⟩

theorem isSpace_eq_false {c : Char} (h : c ≠ ' ' ∧ c ≠ '\t' ∧ c ≠ '\r' ∧ c ≠ '\n') :
    isSpace c = false := by
  simp [isSpace, h]

/-- A token is no space. -/
theorem Token.Stands.starts {t : Token} {rest : List Char} (h : t.Stands rest) :
    StartsToken (t.chars ++ rest) := by
  cases t with
  | mark s =>
    have hmarks : ∀ s ∈ Token.marks, ∀ c ∈ s.toList, isSpace c = false ∧ c ≠ '/' := by decide
    obtain ⟨c, tail, hs⟩ := List.exists_cons_of_ne_nil h.ne_nil
    change s.toList = c :: tail at hs
    obtain ⟨hspace, hslash⟩ := hmarks s h c (hs ▸ List.mem_cons_self)
    show StartsToken (s.toList ++ rest)
    rw [hs]
    exact startsToken_cons hspace hslash _
  | keyword word s =>
    obtain ⟨c, cs, hs⟩ := List.exists_cons_of_ne_nil h.ne_nil
    change s.toList = c :: cs at hs
    have hne := fun {x : Char} => h.ne_of_mem (c := c) (x := x) (hs ▸ List.mem_cons_self)
    show StartsToken (s.toList ++ rest)
    rw [hs]
    refine startsToken_cons (isSpace_eq_false ⟨?_, ?_, ?_, ?_⟩) ?_ _ <;>
      exact hne (by decide) (by decide)
  | ident name =>
    obtain ⟨c, cs, hname, hc, -⟩ := h.1
    show StartsToken (name.toList ++ rest)
    rw [hname]
    refine startsToken_cons (isSpace_eq_false ⟨?_, ?_, ?_, ?_⟩) ?_ _ <;> (rintro rfl; cases hc)
  | string literal =>
    obtain ⟨tail, hliteral, -⟩ := h
    show StartsToken (literal.toList ++ rest)
    rw [hliteral]
    exact startsToken_cons (by decide) (by decide) _
  | entity e => exact ReadsEntity.starts h
  | body text => exact startsToken_cons (by decide) (by decide) _

/-- Only an entity ends with a backslash, and it ends in front of a delimiter. -/
theorem Token.Stands.hidden {t : Token} {rest : List Char} (h : t.Stands rest)
    (hlast : t.chars.getLast? = some '\\') : ∀ d ∈ rest.head?, d ≠ '"' ∧ d ≠ '\\' := by
  cases t with
  | mark s =>
    have hmarks : ∀ s ∈ Token.marks, s.toList.getLast? ≠ some '\\' := by decide
    exact absurd hlast (hmarks s h)
  | keyword word s =>
    exact absurd rfl (h.ne_of_mem (List.mem_of_getLast? hlast) (by decide) (by decide))
  | ident name =>
    obtain ⟨c, cs, hname, hc, hcs⟩ := h.1
    have hmem : '\\' ∈ name.toList := List.mem_of_getLast? hlast
    rw [hname] at hmem
    rcases List.mem_cons.mp hmem with rfl | hmem
    · cases hc
    · cases hcs _ hmem
  | string literal =>
    obtain ⟨tail, hliteral, htail⟩ := h
    obtain ⟨front, rfl⟩ := htail.exists_concat
    change literal.toList.getLast? = _ at hlast
    rw [hliteral, ← List.cons_append, List.getLast?_concat] at hlast
    cases hlast
  | entity e => exact endsEntity_plain (ReadsEntity.ends h)
  | body text =>
    change ('\x7b' :: (text.toList ++ ['\x7d'])).getLast? = _ at hlast
    rw [← List.cons_append, List.getLast?_concat] at hlast
    cases hlast

section

variable {ts us : List Token} {before after mid cs s : List Char}

theorem Laid.hidden (h : Laid ts before after) (hlast : before.getLast? = some '\\') :
    ∀ d ∈ after.head?, d ≠ '"' ∧ d ≠ '\\' := by
  induction h with
  | nil hgap =>
    rcases hgap.eq_nil_or_concat with rfl | ⟨front, c, rfl, hc⟩
    · cases hlast
    · rw [List.getLast?_concat] at hlast
      exact absurd (Option.some.inj hlast) (isSpace_plain hc).2
  | @cons t ts gap before after hgap ht h ih =>
    rcases List.eq_nil_or_concat' before with rfl | ⟨front, c, rfl⟩
    · refine ht.hidden ?_
      obtain ⟨front, c, hchars⟩ := (List.eq_nil_or_concat' t.chars).resolve_left ht.ne_nil
      rw [List.append_nil, hchars, ← List.append_assoc, List.getLast?_concat] at hlast
      rw [hchars, List.getLast?_concat, hlast]
    · refine ih ?_
      rw [← List.append_assoc, ← List.append_assoc, List.getLast?_concat] at hlast
      rw [List.getLast?_concat, hlast]

/-- The tokens in front of a point are there to be read. -/
theorem Laid.run (h : Laid ts before after) :
    ∃ mid, Run ts (before ++ after) mid ∧ skipSpace mid = skipSpace after := by
  induction h with
  | @nil gap after hgap => exact ⟨_, .nil, hgap.skipSpace_append after⟩
  | @cons t ts gap before after hgap ht _ ih =>
    obtain ⟨mid, hrun, hmid⟩ := ih
    refine ⟨mid, .cons ?_ ht hrun, hmid⟩
    rw [List.append_assoc, List.append_assoc, hgap.skipSpace_append,
      skipSpace_of_startsToken ht.starts]

/-- There is a point behind any tokens that are read. -/
theorem Run.exists_laid (h : Run ts cs mid) :
    ∃ before, cs = before ++ mid ∧ Laid ts before mid := by
  induction h with
  | nil => exact ⟨[], rfl, .nil .nil⟩
  | @cons t ts cs mid rest hskip ht _ ih =>
    obtain ⟨before, rfl, hlaid⟩ := ih
    have hne : skipSpace cs ≠ [] := by
      rw [hskip]
      exact List.append_ne_nil_of_left_ne_nil ht.ne_nil _
    obtain ⟨gap, hgap, hcs⟩ := (exists_isSpacing cs).1 hne
    refine ⟨gap ++ (t.chars ++ before), ?_, .cons hgap ht hlaid⟩
    rw [hcs, hskip]
    simp

/-- Which tokens follow does not depend on the space in front of them. -/
theorem LaidOut.congr (h : LaidOut us after) (hskip : skipSpace mid = skipSpace after) :
    LaidOut us mid := by
  obtain ⟨rest, hrun, hend⟩ := h
  cases hrun with
  | nil => exact ⟨mid, .nil, hskip.trans hend⟩
  | cons hcs ht hmore => exact ⟨rest, .cons (hskip.trans hcs) ht hmore, hend⟩

theorem laidOut_append_iff : LaidOut (ts ++ us) cs ↔ ∃ mid, Run ts cs mid ∧ LaidOut us mid := by
  constructor
  · rintro ⟨rest, hrun, hend⟩
    obtain ⟨mid, hts, hus⟩ := run_append_iff.mp hrun
    exact ⟨mid, hts, rest, hus, hend⟩
  · rintro ⟨mid, hts, rest, hus, hend⟩
    exact ⟨rest, run_append_iff.mpr ⟨mid, hts, hus⟩, hend⟩

/-- Wherever the tokens of a text are cut in two, there is a point between
them. -/
theorem LaidOut.exists_laid (h : LaidOut (ts ++ us) cs) :
    ∃ before after, cs = before ++ after ∧ Laid ts before after ∧ LaidOut us after := by
  obtain ⟨mid, hts, hus⟩ := laidOut_append_iff.mp h
  obtain ⟨before, hcs, hlaid⟩ := hts.exists_laid
  exact ⟨before, mid, hcs, hlaid, hus⟩

/-! ## Spacing between tokens -/

/-- What is put in at the point is no comment that touches an entity, and closes
no quote of the entities in front of it. -/
structure KeepsApart (ts : List Token) (before s : List Char) : Prop where
  apart : ∀ e, ts.getLast? = some (.entity e) → e.toList <:+ before → s.head? ≠ some '/'
  quotes : LeavesOpen s ∨ ∀ e, Token.entity e ∈ ts → IsEntityChars e.toList

theorem KeepsApart.tail {t : Token} {gap : List Char}
    (h : KeepsApart (t :: ts) (gap ++ (t.chars ++ before)) s) : KeepsApart ts before s where
  apart e hlast hsuffix := by
    refine h.apart e ?_ (hsuffix.trans ?_)
    · rw [List.getLast?_cons, hlast]
      rfl
    · rw [← List.append_assoc]
      exact List.suffix_append _ _
  quotes := h.quotes.imp_right fun hts e he => hts e (List.mem_cons_of_mem _ he)

/-- The text behind a token starts as before, or with what is put in. -/
theorem forall_head_spaced {p : Char → Prop} (h : ∀ c ∈ (before ++ after).head?, p c)
    (hs : before = [] → ∀ c ∈ s.head?, p c) : ∀ c ∈ (before ++ (s ++ after)).head?, p c := by
  cases before with
  | cons d before => exact h
  | nil =>
    cases s with
    | nil => exact h
    | cons d s => exact hs rfl

theorem Laid.eq_nil (h : Laid ts [] after) : ts = [] := by
  generalize hbefore : ([] : List Char) = before at h
  cases h with
  | nil => rfl
  | cons hgap ht _ =>
    have hchars := (List.append_eq_nil_iff.mp hbefore.symm).2
    exact absurd (List.append_eq_nil_iff.mp hchars).1 ht.ne_nil

/-- An entity is still there when spacing is put in behind it. -/
theorem ReadsEntity.spaced {e : String} (he : ReadsEntity e (before ++ after))
    (h : Laid ts before after) (hs : IsSpacing s) (hfree : before = [] → s.head? ≠ some '/')
    (hquotes : LeavesOpen s ∨ IsEntityChars e.toList) : ReadsEntity e (before ++ (s ++ after)) := by
  have hends : EndsEntity (before ++ (s ++ after)) := by
    refine forall_head_spaced he.ends fun hnil c hc => ?_
    rcases hs.head hc with hblank | rfl
    · simp [endsEntity, hblank]
    · exact absurd hc (hfree hnil)
  rcases hquotes with hopen | hchars
  · have htake := he.take
    rw [← skipSpace_of_startsToken he.starts] at htake
    obtain ⟨htake', hstarts⟩ :=
      takeEntity_reread htake hends fun hleaves => hleaves.spaced hs hopen h.hidden
    exact ⟨htake', hstarts⟩
  · refine IsEntityText.readsEntity ⟨?_, hchars, fun rest hcomment => ?_⟩ hends
    · exact (takeEntity_eq_some_iff.mp he.take).1
    · exact he.starts.noComment (rest ++ (before ++ after)) (by rw [hcomment]; rfl)

/-- A token is still there when spacing is put in behind it. -/
theorem Token.Stands.spaced {t : Token} {gap : List Char} (ht : t.Stands (before ++ after))
    (h : Laid ts before after) (hs : IsSpacing s)
    (hapart : KeepsApart (t :: ts) (gap ++ (t.chars ++ before)) s) :
    t.Stands (before ++ (s ++ after)) := by
  cases t with
  | mark | keyword | string | body => exact ht
  | ident name =>
    refine ⟨ht.1, forall_head_spaced ht.2 fun _ c hc => ?_⟩
    have hne : c = ' ' ∨ c = '\t' ∨ c = '\r' ∨ c = '\n' ∨ c = '/' := by
      simpa [isSpace, or_assoc] using hs.head hc
    rcases hne with rfl | rfl | rfl | rfl | rfl <;> rfl
  | entity e =>
    refine ReadsEntity.spaced ht h hs (fun hnil => ?_)
      (hapart.quotes.imp_right fun hts => hts e List.mem_cons_self)
    subst hnil
    obtain rfl := h.eq_nil
    refine hapart.apart e rfl ?_
    rw [List.append_nil]
    exact List.suffix_append _ _

/-- The tokens in front of a point are still there when spacing is put in at the
point. -/
theorem Laid.spaced (h : Laid ts before after) (hs : IsSpacing s)
    (hapart : KeepsApart ts before s) : Laid ts (before ++ s) after := by
  induction h with
  | nil hgap => exact .nil (hgap.append hs)
  | @cons t ts gap before after hgap ht h ih =>
    have hmore := ih hapart.tail
    have ht' := ht.spaced h hs hapart
    rw [← List.append_assoc] at ht'
    have hcons := Laid.cons hgap ht' hmore
    rwa [← List.append_assoc, ← List.append_assoc, List.append_assoc gap] at hcons

end

/-- A text that is read is made of tokens that spell what was read. White space,
and comments with the ends of their lines, may be put in at any point between
two of them, at the start and at the end: the text is then read as the same
document. Only a comment directly behind an entity becomes a part of it, and
one that closes an open quote of an entity changes where the entity ends. -/
theorem Document.parse_spaced {text : String} {d : Document} (h : Document.parse text = .ok d) :
    (∃ ts, SpellsDocument d ts ∧ LaidOut ts text.toList) ∧
      ∀ ts us before after s, SpellsDocument d (ts ++ us) → text.toList = before ++ after →
        Laid ts before after → LaidOut us after → IsSpacing s → KeepsApart ts before s →
        Document.parse (String.ofList (before ++ (s ++ after))) = .ok d := by
  refine ⟨Document.parse_iff_laidOut.mp h, ?_⟩
  intro ts us before after s hspells _ hlaid hafter hs hapart
  obtain ⟨mid, hrun, hmid⟩ := (hlaid.spaced hs hapart).run
  refine Document.parse_iff_laidOut.mpr ⟨ts ++ us, hspells, ?_⟩
  rw [String.toList_ofList, ← List.append_assoc]
  exact laidOut_append_iff.mpr ⟨mid, hrun, hafter.congr hmid⟩

/-- A policy for a resource. -/
def docPolicy : Document where
  policies := [{ effect := .permit, head := { resource := some ⟨.in, "Doc"⟩ } }]

/-- The tokens of the policy, up to the semicolon. -/
def docTokens : List Token :=
  [.keyword "permit" "permit", .mark "(", .keyword "principal" "principal", .mark ",",
    .keyword "action" "action", .mark ",", .keyword "resource" "resource", .keyword "in" "in",
    .entity "Doc", .mark ")"]

theorem laid_docTokens :
    Laid docTokens "permit(principal,action,resource in Doc)".toList ";".toList := by
  have hmark : ∀ {s ts before}, s ∈ Token.marks → Laid ts before ";".toList →
      Laid (.mark s :: ts) (s.toList ++ before) ";".toList :=
    fun hs h => .cons (.nil : IsSpacing []) hs h
  have hword : ∀ {s ts before}, s ∈ Token.keywords → foldCase s.toList = s.toList →
      Laid ts before ";".toList → Laid (.keyword s s :: ts) (s.toList ++ before) ";".toList :=
    fun hs hfold h => .cons (.nil : IsSpacing []) ⟨hs, hfold⟩ h
  have hparenthesis : Laid [.mark ")"] ")".toList ";".toList := hmark (by decide) (.nil .nil)
  have hentity : ReadsEntity "Doc" (")".toList ++ ";".toList) :=
    ⟨by decide +kernel, startsToken_cons (by decide) (by decide) _⟩
  have hdoc : Laid [.entity "Doc", .mark ")"] " Doc)".toList ";".toList :=
    .cons (.blank rfl .nil : IsSpacing [' ']) hentity hparenthesis
  have hin : Laid [.keyword "in" "in", .entity "Doc", .mark ")"] " in Doc)".toList ";".toList :=
    .cons (.blank rfl .nil : IsSpacing [' ']) ⟨by decide, rfl⟩ hdoc
  exact hword (by decide) rfl <| hmark (by decide) <| hword (by decide) rfl <|
    hmark (by decide) <| hword (by decide) rfl <| hmark (by decide) <| hword (by decide) rfl hin

/-- A comment with a quote may be put in behind the parenthesis. -/
theorem parse_docPolicy_spaced :
    Document.parse "permit(principal,action,resource in Doc);" = .ok docPolicy ∧
      Document.parse "permit(principal,action,resource in Doc) // \"c\n;" = .ok docPolicy := by
  have hparse : Document.parse "permit(principal,action,resource in Doc);" = .ok docPolicy := by
    decide +kernel
  have hhead : SpellsHead ⟨none, none, some ⟨.in, "Doc"⟩⟩ _ :=
    .mk (.free "principal") (.free "action") (.scope "resource" "Doc" (.in "in"))
  have hpolicy : SpellsPolicy ⟨[], .permit, _, []⟩ (docTokens ++ [.mark ";"]) :=
    .mk "permit" .nil hhead .nil
  have hspells : SpellsDocument docPolicy _ := .cons hpolicy .nil
  rw [List.append_nil] at hspells
  have hend : LaidOut [.mark ";"] ";".toList :=
    ⟨[], .single rfl (by decide : ";" ∈ Token.marks), rfl⟩
  have hspace : IsSpacing " // \"c\n".toList :=
    .blank rfl (.comment (by decide : '\n' ∉ " \"c".toList) .nil)
  have hchars : IsEntityChars "Doc".toList :=
    .char (by decide) (by decide) <| .char (by decide) (by decide) <|
      .char (by decide) (by decide) .nil
  have htext : String.ofList ("permit(principal,action,resource in Doc)".toList ++
      (" // \"c\n".toList ++ ";".toList)) = "permit(principal,action,resource in Doc) // \"c\n;" := by
    decide +kernel
  refine ⟨hparse, htext ▸ (Document.parse_spaced hparse).2 _ _ _ _ _ hspells (by decide +kernel)
    laid_docTokens hend hspace ⟨by simp [docTokens], .inr ?_⟩⟩
  intro e he
  obtain rfl : e = "Doc" := by simpa [docTokens] using he
  exact hchars

/-- A comment that touches an entity becomes a part of it. -/
theorem parse_commentBehindEntity :
    Document.parse "permit(principal == User::\"alice\", action, resource);" =
        .ok ⟨[{ effect := .permit, head := { principal := some ⟨.eq, "User::\"alice\""⟩ } }]⟩ ∧
      Document.parse "permit(principal == User::\"alice\"//c\n, action, resource);" =
        .ok ⟨[{ effect := .permit, head := { principal := some ⟨.eq, "User::\"alice\"//c"⟩ } }]⟩ ∧
      Document.parse "permit(principal == User::\"alice\" //c\n, action, resource);" =
        .ok ⟨[{ effect := .permit, head := { principal := some ⟨.eq, "User::\"alice\""⟩ } }]⟩ :=
  ⟨by decide +kernel, by decide +kernel, by decide +kernel⟩

/-- A comment that closes the quote of an entity makes the entity longer. -/
theorem parse_commentClosesQuote :
    (Document.parse "permit(principal == A\", action, resource);").isOk = true ∧
      (Document.parse "permit(principal == A\", action //\"\n, resource);").isOk = false :=
  ⟨by decide +kernel, by decide +kernel⟩

end PolicyDialects.Cedar
