import PolicyDialects.Proofs.Cedar.Language.Policies
import PolicyDialects.Proofs.Cedar.Spelling

/-!
# Documents as the Cedar language sees them

A text that is laid out as the tokens of a document has other tokens for the
Cedar language: keywords may be the front of a longer word, an entity is several
tokens, and so is the body of a clause. Where the language accepts the text its
keywords are spelled as in print, and the print of each part shows the tokens
that the language sees in the text, but for the values of annotations.

Results:

* `Sees`, `Shows`: the tokens of a text, and of a print in front of what ends a
  token.
* `Sees.mark`, `Sees.keyword`, `Sees.entity`, `Sees.body`: what the language sees
  of one token.
* `Sees.slot`, `Sees.action`, `Sees.head`, `Sees.notes`: the parts of a policy.
* `Sees.policyFront`: a policy up to its clauses.
-/

namespace PolicyDialects.Cedar

open Text

/-! ## Tokens of a print -/

/-- In front of what ends a token, the text is these tokens. -/
def Shows (text : List Char) (ts : List Language.Token) : Prop :=
  ∀ rest, Language.EndsToken rest →
    Language.tokensOf? (text ++ rest) = (Language.tokensOf? rest).map (ts ++ ·)

theorem tokensOf?_identifier {name : String} {rest : List Char} (h : IsIdent name)
    (hrest : Stops isIdentPart rest) :
    Language.tokensOf? (name.toList ++ rest) =
      (Language.tokensOf? rest).map (.ident name :: ·) := by
  obtain ⟨c, w, hname, hc, hw⟩ := h
  have hparts : ∀ d ∈ name.toList, isIdentPart d = true := by
    rw [hname]
    refine List.forall_mem_cons.mpr ⟨?_, hw⟩
    rw [isIdentPart, hc, Bool.true_or]
  have hspan := Language.span_append hrest []
  rw [List.nil_append, List.takeWhile_nil, List.dropWhile_nil, List.nil_append] at hspan
  rw [Language.tokensOf?_word ⟨c, w, hname, hc⟩ hparts, hspan.1, hspan.2, List.append_nil,
    String.ofList_toList]

theorem endsToken_cons {c : Char} (h : Language.endsToken c = true) (cs : List Char) :
    Language.EndsToken (c :: cs) := by
  intro d hd
  obtain rfl : c = d := Option.some.inj hd
  exact h

section

variable {text text' : List Char} {ts us : List Language.Token}

theorem shows_of_isSealed (h : Language.isSealed text = true)
    (hts : Language.tokensOf? text = some ts) : Shows text ts := by
  intro rest hrest
  rw [Language.tokensOf?_append h hrest, hts, Option.bind_some]

theorem shows_nil : Shows [] [] := fun rest _ => by simp

theorem Shows.append (h : Shows text ts) (h' : Shows text' us)
    (hends : ∀ rest, Language.EndsToken rest → Language.EndsToken (text' ++ rest)) :
    Shows (text ++ text') (ts ++ us) := by
  intro rest hrest
  rw [List.append_assoc, h _ (hends rest hrest), h' rest hrest, Option.map_map]
  simp [Function.comp_def]

/-- What ends the token in front stands at the start of the second text. -/
theorem Shows.append_cons {c : Char} (h : Shows text ts) (h' : Shows (c :: text') us)
    (hc : Language.endsToken c = true) : Shows (text ++ c :: text') (ts ++ us) :=
  h.append h' fun _ _ => endsToken_cons hc _

theorem Shows.blank {c : Char} (h : Shows text ts) (hc : isBlank c = true) :
    Shows (c :: text) ts := by
  intro rest hrest
  rw [List.cons_append, Language.tokensOf?_blank hc, h rest hrest]

theorem Shows.symbol {s : String} (h : Shows text ts) (hs : s ∈ Language.symbols) :
    Shows (s.toList ++ text) (.mark s :: ts) := by
  intro rest hrest
  rw [List.append_assoc, Language.tokensOf?_symbol hs, h rest hrest, Option.map_map]
  rfl

theorem shows_mark {s : String} (hs : s ∈ Language.symbols) : Shows s.toList [.mark s] := by
  simpa using shows_nil.symbol hs

theorem shows_ident {name : String} (h : IsIdent name) : Shows name.toList [.ident name] :=
  fun _ hrest => tokensOf?_identifier h (Language.stops_of_endsToken hrest fun _ => id)

end

/-! ## A document as the language sees it -/

/-- The language sees the text as these tokens. -/
structure Sees (cs : List Char) (ts : List Language.Token) : Prop where
  lines : Language.KeepsLines cs
  tokens : Language.tokensOf? cs = some ts

section

variable {t : Token} {us : List Token} {cs rest : List Char} {ts : List Language.Token}

/-- The first token, and what is behind it. -/
theorem Sees.front (h : Sees cs ts) (hrun : Run (t :: us) cs rest) :
    ∃ mid, t.Stands mid ∧ Run us mid rest ∧ Language.tokensOf? (t.chars ++ mid) = some ts ∧
      Language.KeepsLines mid := by
  cases hrun with
  | cons hskip ht hmore =>
    obtain ⟨htokens, hlines⟩ := Language.tokensOf?_skipSpace h.lines
    rw [hskip] at htokens hlines
    exact ⟨_, ht, hmore, htokens.trans h.tokens, hlines.suffix⟩

theorem Sees.mark {s : String} (h : Sees cs ts) (hrun : Run (.mark s :: us) cs rest) :
    ∃ ts' mid, ts = .mark s :: ts' ∧ Sees mid ts' ∧ Run us mid rest := by
  obtain ⟨mid, hs, hmore, htokens, hlines⟩ := h.front hrun
  have hsymbols : ∀ s ∈ Token.marks, s ∈ Language.symbols := by decide
  change Language.tokensOf? (s.toList ++ mid) = _ at htokens
  rw [Language.tokensOf?_symbol (hsymbols s hs)] at htokens
  obtain ⟨ts', hts', rfl⟩ := Option.map_eq_some_iff.mp htokens
  exact ⟨ts', mid, rfl, ⟨hlines, hts'⟩, hmore⟩

/-- The letters of a keyword in any case. -/
theorem isLetter_of_toLower {c : Char} (h : isLetter c.toLower = true) : isLetter c = true := by
  by_cases hupper : 'A' ≤ c ∧ c ≤ 'Z'
  · simp [isLetter, hupper]
  · change isLetter (if _ : c.val ≥ 'A'.val ∧ c.val ≤ 'Z'.val then _ else c) = true at h
    rwa [dif_neg fun hval => hupper ⟨hval.1, hval.2⟩] at h

/-- If the name is in small letters, it starts with the word. -/
def IsFront (word name : String) : Prop :=
  foldCase name.toList = name.toList → word.toList <+: name.toList

instance (word name : String) : Decidable (IsFront word name) :=
  inferInstanceAs (Decidable (foldCase name.toList = name.toList → word.toList <+: name.toList))

/-- A keyword may be the front of a longer word. It is not, when it is seen as
the keyword that it is. -/
theorem Sees.keyword {word s : String} (h : Sees cs ts)
    (hrun : Run (.keyword word s :: us) cs rest) :
    ∃ name ts', ts = .ident name :: ts' ∧ IsFront word name ∧
      (name = word → ∃ mid, Sees mid ts' ∧ Run us mid rest) := by
  obtain ⟨mid, ⟨hword, hfold⟩, hmore, htokens, hlines⟩ := h.front hrun
  change Language.tokensOf? (s.toList ++ mid) = _ at htokens
  have hletters : ∀ c ∈ s.toList, isLetter c = true := by
    have hwords : ∀ word ∈ Token.keywords, ∀ c ∈ word.toList, isLetter c = true := by decide
    intro c hc
    refine isLetter_of_toLower (hwords word hword _ ?_)
    rw [← hfold]
    exact List.mem_map_of_mem hc
  have hne : s.toList ≠ [] := by
    have hwords : ∀ word ∈ Token.keywords, word.toList ≠ [] := by decide
    intro hnil
    rw [hnil] at hfold
    exact hwords word hword hfold.symm
  obtain ⟨c, w, hs⟩ := List.exists_cons_of_ne_nil hne
  have hstart : isIdentStart c = true := by
    rw [isIdentStart, hletters c (hs ▸ List.mem_cons_self), Bool.true_or]
  have hparts : ∀ c ∈ s.toList, isIdentPart c = true := fun c hc => by
    rw [isIdentPart, isIdentStart, hletters c hc, Bool.true_or, Bool.true_or]
  rw [Language.tokensOf?_word ⟨c, w, hs, hstart⟩ hparts] at htokens
  obtain ⟨ts', hts', rfl⟩ := Option.map_eq_some_iff.mp htokens
  refine ⟨_, ts', rfl, fun hlower => ?_, fun hname => ?_⟩
  · rw [String.toList_ofList, foldCase, List.map_append] at hlower
    rw [String.toList_ofList, ← hfold]
    exact ⟨_, congrArg (· ++ _) (List.append_inj_left hlower (List.length_map _))⟩
  · have hchars := congrArg (fun n : String => n.toList.length) hname
    have hlength := congrArg List.length hfold
    simp only [String.toList_ofList, List.length_append] at hchars
    rw [foldCase, List.length_map] at hlength
    have hnone : mid.takeWhile isIdentPart = [] := List.length_eq_zero_iff.mp (by omega)
    have hall := List.takeWhile_append_dropWhile (p := isIdentPart) (l := mid)
    rw [hnone, List.nil_append] at hall
    rw [hall] at hts'
    exact ⟨mid, ⟨hlines, hts'⟩, hmore⟩

/-- A keyword that a check takes. -/
theorem Sees.word {word s : String} {r : List Language.Token} (h : Sees cs ts)
    (hrun : Run (.keyword word s :: us) cs rest) (hword : Language.word word ts = some r) :
    ts = .ident word :: r ∧ ∃ mid, Sees mid r ∧ Run us mid rest := by
  obtain ⟨name, ts', rfl, -, hname⟩ := h.keyword hrun
  obtain ⟨heq, rfl⟩ := List.cons.inj (Language.word_eq_some hword)
  obtain rfl := Language.Token.ident.inj heq
  exact ⟨rfl, hname rfl⟩

theorem Sees.ident {name : String} (h : Sees cs ts) (hrun : Run (.ident name :: us) cs rest) :
    IsIdent name ∧ ∃ ts' mid, ts = .ident name :: ts' ∧ Sees mid ts' ∧ Run us mid rest := by
  obtain ⟨mid, ⟨hident, hstops⟩, hmore, htokens, hlines⟩ := h.front hrun
  change Language.tokensOf? (name.toList ++ mid) = _ at htokens
  rw [tokensOf?_identifier hident hstops] at htokens
  obtain ⟨ts', hts', rfl⟩ := Option.map_eq_some_iff.mp htokens
  exact ⟨hident, ts', mid, rfl, ⟨hlines, hts'⟩, hmore⟩

theorem Sees.string {literal : String} (h : Sees cs ts)
    (hrun : Run (.string literal :: us) cs rest) :
    ∃ body ts' mid, ts = .string body :: ts' ∧ Sees mid ts' ∧ Run us mid rest := by
  obtain ⟨mid, hliteral, hmore, htokens, hlines⟩ := h.front hrun
  obtain ⟨body, ts', rfl, hts'⟩ := Language.tokensOf?_literal hliteral htokens
  exact ⟨body, ts', mid, rfl, ⟨hlines, hts'⟩, hmore⟩

theorem Sees.entity {e : String} (h : Sees cs ts) (hrun : Run (.entity e :: us) cs rest)
    (hcomment : Language.hasComment e.toList = false) :
    ∃ vs ts' mid, ts = vs ++ ts' ∧ Shows e.toList vs ∧ Language.Undelimited vs ∧ Sees mid ts' ∧
      Run us mid rest := by
  obtain ⟨mid, he, hmore, htokens, hlines⟩ := h.front hrun
  change Language.tokensOf? (e.toList ++ mid) = _ at htokens
  have htaken : Language.TakenIn mid e.toList := (takeEntity_eq_some_iff.mp he.take).2
  obtain ⟨hsealed, hfree⟩ := htaken.sealed (ReadsEntity.ends he) hcomment (by rw [htokens]; rfl)
  rw [Language.tokensOf?_append hsealed (Language.endsToken_of_endsEntity (ReadsEntity.ends he))]
    at htokens
  obtain ⟨vs, hvs, hmap⟩ := Option.bind_eq_some_iff.mp htokens
  obtain ⟨ts', hts', rfl⟩ := Option.map_eq_some_iff.mp hmap
  exact ⟨vs, ts', mid, rfl, shows_of_isSealed hsealed hvs, hfree vs hvs, ⟨hlines, hts'⟩, hmore⟩

theorem Sees.body {text : String} (h : Sees cs ts) (hrun : Run (.body text :: us) cs rest)
    (hsealed : Language.isSealed (trim text.toList) = true) :
    ∃ vs ts' mid, ts = .mark "\x7b" :: (vs ++ .mark "\x7d" :: ts') ∧ Shows (trim text.toList) vs ∧
      Sees mid ts' ∧ Run us mid rest := by
  obtain ⟨mid, -, hmore, htokens, hlines⟩ := h.front hrun
  obtain ⟨before, after, htext, hbefore, hafter⟩ := exists_blanks_trim text.toList
  have hblanks : ∀ {blanks cs : List Char}, (∀ c ∈ blanks, isBlank c = true) →
      Language.tokensOf? (blanks ++ cs) = Language.tokensOf? cs := by
    intro blanks cs hblanks
    induction blanks with
    | nil => rfl
    | cons c blanks ih =>
      rw [List.cons_append, Language.tokensOf?_blank (hblanks c List.mem_cons_self)]
      exact ih fun d hd => hblanks d (List.mem_cons_of_mem _ hd)
  have hends : Language.EndsToken (after ++ ("\x7d".toList ++ mid)) := by
    intro c hc
    cases after with
    | nil =>
      obtain rfl : '\x7d' = c := Option.some.inj hc
      decide
    | cons d after =>
      obtain rfl : d = c := Option.some.inj hc
      rw [Language.endsToken, hafter d List.mem_cons_self, Bool.true_or]
  have hchars : (Token.body text).chars ++ mid =
      "\x7b".toList ++ (before ++ (trim text.toList ++ (after ++ ("\x7d".toList ++ mid)))) := by
    show '\x7b' :: (text.toList ++ ['\x7d']) ++ mid = _
    conv_lhs => rw [htext]
    simp
  rw [hchars, Language.tokensOf?_symbol (by decide), hblanks hbefore,
    Language.tokensOf?_append hsealed hends, hblanks hafter,
    Language.tokensOf?_symbol (by decide)] at htokens
  obtain ⟨ts₁, hts₁, rfl⟩ := Option.map_eq_some_iff.mp htokens
  obtain ⟨vs, hvs, hts₂⟩ := Option.bind_eq_some_iff.mp hts₁
  obtain ⟨ts₃, hts₃, rfl⟩ := Option.map_eq_some_iff.mp hts₂
  obtain ⟨ts', hts', rfl⟩ := Option.map_eq_some_iff.mp hts₃
  exact ⟨vs, ts', mid, rfl, shows_of_isSealed hsealed hvs, ⟨hlines, hts'⟩, hmore⟩

end

/-! ## Slots -/

section

variable {us : List Token} {cs rest : List Char} {T r : List Language.Token} {m m' : String}

/-- An entity in front of a delimiter. -/
theorem Sees.entity_mark {e : String} {vs : List Language.Token} (h : Sees cs T)
    (hrun : Run (.entity e :: .mark m :: us) cs rest)
    (hcomment : Language.hasComment e.toList = false) (hm : m ∈ Language.delimiters)
    (hvs : Language.Undelimited vs) (hT : T = vs ++ .mark m' :: r)
    (hm' : m' ∈ Language.delimiters) :
    m' = m ∧ Shows e.toList vs ∧ ∃ mid, Sees mid r ∧ Run us mid rest := by
  obtain ⟨ws, T', mid, rfl, hshows, hws, hsees, hrun⟩ := h.entity hrun hcomment
  obtain ⟨r', mid', rfl, hsees, hrun⟩ := hsees.mark hrun
  obtain ⟨rfl, rfl, rfl⟩ := Language.undelimited_inj hws hvs hm hm' hT
  exact ⟨rfl, hshows, mid', hsees, hrun⟩

theorem isIdent_of_mem_keywords {w : String} (h : w ∈ Token.keywords) : IsIdent w := by
  simp only [Token.keywords, List.mem_cons, List.not_mem_nil, or_false] at h
  rcases h with rfl | rfl | rfl | rfl | rfl | rfl | rfl | rfl <;>
    exact ⟨_, _, rfl, rfl, by decide⟩

/-- A slot with an entity, behind its operator. -/
theorem Sees.scope {word : String} {c : Scope} {t : Language.Token} {T₁ : List Language.Token}
    {template : Bool} (h : Sees cs T₁) (hrun : Run (.entity c.entity :: .mark m :: us) cs rest)
    (hword : word ∈ Token.keywords) (hcomment : Language.hasComment c.entity.toList = false)
    (hm : m ∈ Language.delimiters) (hm' : m' ∈ Language.delimiters)
    (hop : Shows c.operator.keyword.toList [t])
    (hcheck : ∀ r, Language.scope word (.ident word :: t :: r) = Language.entityOrSlot word r)
    (hscope : Language.scope word (.ident word :: t :: T₁) = some (template, .mark m' :: r)) :
    m' = m ∧ ∃ vs mid, .ident word :: t :: T₁ = vs ++ .mark m :: r ∧
      Shows (Scope.slotText word (some c)).toList vs ∧ Sees mid r ∧ Run us mid rest ∧
      ∀ r', Language.scope word (vs ++ .mark m :: r') = some (template, .mark m :: r') := by
  rw [hcheck] at hscope
  obtain ⟨vs, hvs, rfl, hagain⟩ := Language.takes_entityOrSlot word hscope
  obtain ⟨rfl, hentity, mid, hsees, hrun⟩ := h.entity_mark hrun hcomment hm hvs rfl hm'
  refine ⟨rfl, .ident word :: t :: vs, mid, rfl, ?_, hsees, hrun, fun r' => ?_⟩
  · have hspaced := hop.append_cons (hentity.blank (c := ' ') rfl) rfl
    have hall := (shows_ident (isIdent_of_mem_keywords hword)).append_cons
      (hspaced.blank (c := ' ') rfl) rfl
    simpa [Scope.slotText] using hall
  · rw [List.cons_append, List.cons_append, hcheck, hagain]

/-- The principal or resource slot in front of a delimiter. -/
theorem Sees.slot {word : String} {c : Option Scope} {ts : List Token} {template : Bool}
    (h : Sees cs T) (hspells : SpellsSlot word c ts) (hrun : Run (ts ++ .mark m :: us) cs rest)
    (hword : word ∈ Token.keywords)
    (hcomments : ∀ s ∈ c, Language.hasComment s.entity.toList = false)
    (hm : m ∈ Language.delimiters) (hm' : m' ∈ Language.delimiters)
    (hscope : Language.scope word T = some (template, .mark m' :: r)) :
    m' = m ∧ ∃ vs mid, T = vs ++ .mark m :: r ∧ Shows (Scope.slotText word c).toList vs ∧
      Sees mid r ∧ Run us mid rest ∧
      ∀ r', Language.scope word (vs ++ .mark m :: r') = some (template, .mark m :: r') := by
  have hplain : ∀ m ∈ Language.delimiters, m ≠ "==" := by decide
  obtain ⟨T₁, hT, -⟩ := Option.bind_eq_some_iff.mp hscope
  cases hspells with
  | free s =>
    obtain ⟨rfl, mid, hsees, hrun⟩ := h.word hrun hT
    obtain ⟨T₂, mid', rfl, hsees, hrun⟩ := hsees.mark hrun
    rw [Language.scope_mark _ (hplain m hm)] at hscope
    cases hscope
    exact ⟨rfl, [.ident word], mid', rfl, shows_ident (isIdent_of_mem_keywords hword), hsees, hrun,
      fun r' => Language.scope_mark r' (hplain m hm)⟩
  | scope s e hop =>
    obtain ⟨rfl, mid, hsees, hrun⟩ := h.word hrun hT
    cases hop with
    | eq =>
      obtain ⟨T₂, mid, rfl, hsees, hrun⟩ := hsees.mark hrun
      exact Sees.scope (c := ⟨.eq, e⟩) hsees hrun hword (hcomments _ rfl) hm hm'
        (shows_mark (s := "==") (by decide)) (fun r => Language.scope_eq r) hscope
    | «in» s' =>
      obtain ⟨name, T₂, rfl, hfront, hname⟩ := hsees.keyword hrun
      by_cases hin : name = "in"
      · subst hin
        obtain ⟨mid, hsees, hrun⟩ := hname rfl
        exact Sees.scope (c := ⟨.in, e⟩) hsees hrun hword (hcomments _ rfl) hm hm'
          (shows_ident (isIdent_of_mem_keywords (w := "in") (by decide)))
          (fun r => Language.scope_in r) hscope
      · -- a longer word than the keyword is no delimiter
        have his : name ≠ "is" := by
          rintro rfl
          exact absurd hfront (by decide)
        rw [Language.scope_ident _ hin his] at hscope
        cases hscope

/-- The entities of a list behind the first one. -/
theorem Sees.items {es : List String} (h : Sees cs T)
    (hrun : Run (es.flatMap itemTokens ++ us) cs rest)
    (hcomments : ∀ e ∈ es, Language.hasComment e.toList = false) :
    ∃ vs T₁ mid, T = vs ++ T₁ ∧ .mark "]" ∉ vs ∧ Shows (moreEntities es) vs ∧ Sees mid T₁ ∧
      Run us mid rest := by
  induction es generalizing cs T with
  | nil => exact ⟨[], T, cs, rfl, List.not_mem_nil, shows_nil, h, hrun⟩
  | cons e es ih =>
    obtain ⟨T₁, mid, rfl, hsees, hrun⟩ := h.mark hrun
    obtain ⟨ws, T₂, mid, rfl, hshows, hws, hsees, hrun⟩ :=
      hsees.entity hrun (hcomments e List.mem_cons_self)
    obtain ⟨vs, T₃, mid, rfl, hvs, hmore, hsees, hrun⟩ :=
      ih hsees hrun fun e' he' => hcomments e' (List.mem_cons_of_mem _ he')
    refine ⟨.mark "," :: (ws ++ vs), T₃, mid, by simp, ?_, ?_, hsees, hrun⟩
    · simpa [hvs] using hws "]" (by decide)
    · have hitem := (hshows.blank (c := ' ') rfl).symbol (s := ",") (by decide)
      refine hitem.append hmore fun rest hrest => ?_
      cases es with
      | nil => exact hrest
      | cons => exact endsToken_cons rfl _

/-- A list of actions in front of a delimiter. -/
theorem Sees.actionList {e : String} {es : List String} {k : Nat} (h : Sees cs T)
    (hrun : Run (.entity e :: (es.flatMap itemTokens ++ .mark "]" :: .mark m :: us)) cs rest)
    (hcomments : ∀ e' ∈ e :: es, Language.hasComment e'.toList = false)
    (hitems : Language.items "]" Language.actionEntity T = some (k, .mark m' :: r)) :
    m' = m ∧ ∃ vs mid, T = vs ++ .mark "]" :: .mark m :: r ∧
      Shows (e.toList ++ (moreEntities es ++ [']'])) (vs ++ [.mark "]"]) ∧ Sees mid r ∧
      Run us mid rest ∧
      ∀ r', Language.items "]" Language.actionEntity (vs ++ .mark "]" :: r') = some (k, r') := by
  obtain ⟨hfirst, hothers⟩ := List.forall_mem_cons.mp hcomments
  obtain ⟨ws, T₁, mid, rfl, hshows, hws, hsees, hrun⟩ := h.entity hrun hfirst
  obtain ⟨vs, T₂, mid, rfl, hvs, hmore, hsees, hrun⟩ := hsees.items hrun hothers
  obtain ⟨T₃, mid, rfl, hsees, hrun⟩ := hsees.mark hrun
  obtain ⟨T₄, mid, rfl, hsees, hrun⟩ := hsees.mark hrun
  -- both texts go on behind the first closing bracket
  obtain ⟨xs, hxs, hsplit, hagain⟩ := Language.items_takes hitems
  rw [← List.append_assoc] at hsplit
  have hfree : .mark "]" ∉ ws ++ vs := by simpa [hvs] using hws "]" (by decide)
  obtain ⟨rfl, -, hbehind⟩ := Language.first_inj (p := (· = .mark "]"))
    (fun _ h heq => hfree (heq ▸ h)) (fun _ h heq => hxs (heq ▸ h)) rfl rfl hsplit
  cases hbehind
  have hbracket := shows_mark (s := "]") (by decide)
  have hlist := hshows.append (hmore.append hbracket fun _ _ => endsToken_cons rfl _)
    fun rest hrest => by
      cases es with
      | nil => exact endsToken_cons rfl _
      | cons => exact endsToken_cons rfl _
  refine ⟨rfl, ws ++ vs, mid, (List.append_assoc _ _ _).symm, ?_, hsees, hrun, hagain⟩
  rw [List.append_assoc]
  exact hlist

/-- The action slot in front of a delimiter. -/
theorem Sees.action {a : Option ActionScope} {ts : List Token} (h : Sees cs T)
    (hspells : SpellsAction a ts) (hrun : Run (ts ++ .mark m :: us) cs rest)
    (hcomments : ∀ c ∈ a, ∀ e ∈ c.entities, Language.hasComment e.toList = false)
    (hm : m ∈ Language.delimiters) (hm' : m' ∈ Language.delimiters)
    (hscope : Language.actionScope T = some (.mark m' :: r)) :
    m' = m ∧ ∃ vs mid, T = vs ++ .mark m :: r ∧ Shows (ActionScope.slotText a).toList vs ∧
      Sees mid r ∧ Run us mid rest ∧
      ∀ r', Language.actionScope (vs ++ .mark m :: r') = some (.mark m :: r') := by
  have hplain : ∀ m ∈ Language.delimiters, m ≠ "==" := by decide
  have haction := shows_ident (isIdent_of_mem_keywords (w := "action") (by decide))
  obtain ⟨T₁, hT, -⟩ := Option.bind_eq_some_iff.mp hscope
  cases hspells with
  | free s =>
    obtain ⟨rfl, mid, hsees, hrun⟩ := h.word hrun hT
    obtain ⟨T₂, mid', rfl, hsees, hrun⟩ := hsees.mark hrun
    rw [Language.actionScope_mark _ (hplain m hm)] at hscope
    cases hscope
    exact ⟨rfl, [.ident "action"], mid', rfl, haction, hsees, hrun,
      fun r' => Language.actionScope_mark r' (hplain m hm)⟩
  | eq s e =>
    obtain ⟨rfl, mid, hsees, hrun⟩ := h.word hrun hT
    obtain ⟨T₂, mid, rfl, hsees, hrun⟩ := hsees.mark hrun
    rw [Language.actionScope_eq] at hscope
    obtain ⟨vs, -, hvs, rfl, hagain⟩ := Language.actionEntity_takes hscope
    obtain ⟨rfl, hentity, mid, hsees, hrun⟩ :=
      hsees.entity_mark hrun (hcomments _ rfl e (List.mem_singleton_self e)) hm hvs rfl hm'
    refine ⟨rfl, .ident "action" :: .mark "==" :: vs, mid, rfl, ?_, hsees, hrun, fun r' => ?_⟩
    · have hspaced := (hentity.blank (c := ' ') rfl).symbol (s := "==") (by decide)
      have hall := haction.append_cons (hspaced.blank (c := ' ') rfl) rfl
      simpa [ActionScope.slotText] using hall
    · rw [List.cons_append, List.cons_append, Language.actionScope_eq, hagain]
  | «in» s s' e es =>
    simp only [List.cons_append, List.append_assoc, List.nil_append] at hrun
    obtain ⟨rfl, mid, hsees, hrun⟩ := h.word hrun hT
    obtain ⟨name, T₂, rfl, -, hname⟩ := hsees.keyword hrun
    by_cases hin : name = "in"
    · subst hin
      obtain ⟨mid, hsees, hrun⟩ := hname rfl
      obtain ⟨T₃, mid, rfl, hsees, hrun⟩ := hsees.mark hrun
      rw [Language.actionScope_in] at hscope
      obtain ⟨⟨k, r'⟩, hitems, heq⟩ := Option.map_eq_some_iff.mp hscope
      obtain rfl : r' = .mark m' :: r := heq
      obtain ⟨rfl, vs, mid, rfl, hlist, hsees, hrun, hagain⟩ :=
        hsees.actionList hrun (hcomments _ rfl) hitems
      refine ⟨rfl, .ident "action" :: .ident "in" :: .mark "[" :: (vs ++ [.mark "]"]), mid,
        by simp, ?_, hsees, hrun, fun r' => ?_⟩
      · have hopen := (hlist.symbol (s := "[") (by decide)).blank (c := ' ') rfl
        have hin := shows_ident (isIdent_of_mem_keywords (w := "in") (by decide))
        have hspaced := (hin.append_cons hopen rfl).blank (c := ' ') rfl
        have hall := haction.append_cons hspaced rfl
        rw [ActionScope.slotText, String.toList_append, String.toList_append,
          toList_intercalate_entities]
        simpa using hall
      · have hitems := hagain (.mark m' :: r')
        simp only [List.cons_append, List.append_assoc, List.nil_append] at hitems ⊢
        rw [Language.actionScope_in, hitems]
        rfl
    · rw [Language.actionScope_ident _ hin] at hscope
      cases hscope

/-- The slots of a policy, up to the parenthesis behind them. -/
theorem Sees.head {hd : Head} {ts : List Token} {template : Bool} (h : Sees cs T)
    (hspells : SpellsHead hd ts) (hrun : Run (ts ++ .mark ")" :: us) cs rest)
    (hcomments : ∀ e ∈ hd.entities, Language.hasComment e.toList = false)
    (hfront : Language.headFront T = some (template, r)) :
    ∃ vs mid, T = vs ++ r ∧ Shows (hd.text.toList ++ [')']) vs ∧ Sees mid r ∧ Run us mid rest ∧
      ∀ r', Language.headFront (vs ++ r') = some (template, r') := by
  obtain ⟨⟨a, T₁⟩, hprincipal, hfront⟩ := Option.bind_eq_some_iff.mp hfront
  obtain ⟨T₂, hcomma₁, hfront⟩ := Option.bind_eq_some_iff.mp hfront
  obtain ⟨T₃, haction, hfront⟩ := Option.bind_eq_some_iff.mp hfront
  obtain ⟨T₄, hcomma₂, hfront⟩ := Option.bind_eq_some_iff.mp hfront
  obtain ⟨⟨b, T₅⟩, hresource, hfront⟩ := Option.bind_eq_some_iff.mp hfront
  obtain ⟨T₆, hclose, hret⟩ := Option.bind_eq_some_iff.mp hfront
  obtain ⟨rfl, rfl⟩ := Prod.mk.inj (Option.some.inj hret)
  obtain rfl := Language.mark_eq_some hcomma₁
  obtain rfl := Language.mark_eq_some hcomma₂
  -- the language allows another comma behind the slots
  obtain ⟨m', T₇, rfl, hm'⟩ : ∃ m' T₇, T₅ = .mark m' :: T₇ ∧ m' ∈ Language.delimiters := by
    cases hcomma : Language.mark "," T₅ with
    | some T₇ => exact ⟨",", T₇, Language.mark_eq_some hcomma, by decide⟩
    | none =>
      rw [hcomma] at hclose
      exact ⟨")", T₆, Language.mark_eq_some hclose, by decide⟩
  cases hspells with
  | @mk principal resource action ps as rs hp ha hr =>
  simp only [List.append_assoc, List.cons_append] at hrun
  obtain ⟨-, vs₁, mid, rfl, hshows₁, hsees, hrun, hagain₁⟩ := h.slot hp hrun (by decide)
    (fun s hs => hcomments _ (by simp [Head.entities, Option.mem_def.mp hs])) (by decide)
    (by decide) hprincipal
  obtain ⟨-, vs₂, mid, rfl, hshows₂, hsees, hrun, hagain₂⟩ := hsees.action ha hrun
    (fun c hc e he => hcomments e (by simp [Head.entities, Option.mem_def.mp hc, he])) (by decide)
    (by decide) haction
  obtain ⟨rfl, vs₃, mid, rfl, hshows₃, hsees, hrun, hagain₃⟩ := hsees.slot hr hrun (by decide)
    (fun s hs => hcomments _ (by simp [Head.entities, Option.mem_def.mp hs])) (by decide) hm'
    hresource
  obtain rfl : T₇ = T₆ := Option.some.inj hclose
  refine ⟨vs₁ ++ .mark "," :: (vs₂ ++ .mark "," :: (vs₃ ++ [.mark ")"])), mid, by simp, ?_, hsees,
    hrun, fun r' => ?_⟩
  · have hlast := hshows₃.append (shows_mark (s := ")") (by decide)) fun _ _ => endsToken_cons rfl _
    have hresource := (hlast.blank (c := ' ') rfl).symbol (s := ",") (by decide)
    have haction := hshows₂.append hresource fun _ _ => endsToken_cons rfl _
    have hcomma := (haction.blank (c := ' ') rfl).symbol (s := ",") (by decide)
    have hall := hshows₁.append hcomma fun _ _ => endsToken_cons rfl _
    simpa [Head.text] using hall
  · have hnone : Language.mark "," (.mark ")" :: r') = none := rfl
    simp only [List.append_assoc, List.cons_append, List.nil_append, Language.headFront, hagain₁,
      hagain₂, hagain₃, Language.mark_self, Option.bind_eq_bind, Option.bind_some, hnone,
      Option.getD_none, Option.pure_def]

end

/-! ## Annotations -/

/-- The tokens of an annotation in print. -/
def noteTokens (a : Note) : List Language.Token :=
  match a.value with
  | none => [.mark "@", .ident a.key]
  | some value =>
    [.mark "@", .ident a.key, .mark "(", .string (quoteBody value.toList), .mark ")"]

theorem tokensOf?_noteLine {a : Note} (h : IsIdent a.key) (rest : List Char) :
    Language.tokensOf? (noteLine a ++ rest) =
      (Language.tokensOf? rest).map (noteTokens a ++ ·) := by
  have hbreak : Language.tokensOf? ('\n' :: rest) = Language.tokensOf? rest :=
    Language.tokensOf?_blank rfl rest
  obtain ⟨key, _ | value⟩ := a
  · have htext : noteLine ⟨key, none⟩ ++ rest = "@".toList ++ (key.toList ++ '\n' :: rest) := by
      simp [noteLine, Note.text]
    rw [htext, Language.tokensOf?_symbol (by decide),
      tokensOf?_identifier h (by rintro c ⟨⟩; decide), hbreak, Option.map_map]
    rfl
  · have htext : noteLine ⟨key, some value⟩ ++ rest =
        "@".toList ++ (key.toList ++ ("(".toList ++ ((quote value).toList ++
          (")".toList ++ '\n' :: rest)))) := by
      simp [noteLine, Note.text]
    rw [htext, Language.tokensOf?_symbol (by decide),
      tokensOf?_identifier h (by rintro c ⟨⟩; decide), Language.tokensOf?_symbol (by decide),
      Language.tokensOf?_quote, Language.tokensOf?_symbol (by decide), hbreak]
    simp only [Option.map_map]
    rfl

theorem tokensOf?_noteLines {notes : List Note} (h : ∀ a ∈ notes, IsIdent a.key)
    (rest : List Char) :
    Language.tokensOf? (noteLines notes ++ rest) =
      (Language.tokensOf? rest).map (notes.flatMap noteTokens ++ ·) := by
  induction notes with
  | nil => simp [noteLines]
  | cons a notes ih =>
    obtain ⟨ha, hnotes⟩ := List.forall_mem_cons.mp h
    have hcons : noteLines (a :: notes) ++ rest = noteLine a ++ (noteLines notes ++ rest) := by
      simp [noteLines]
    rw [hcons, tokensOf?_noteLine ha, ih hnotes, Option.map_map]
    simp [Function.comp_def]

section

variable {us : List Token} {cs rest : List Char} {T r : List Language.Token}

theorem flatMap_noteTokens_ne (notes : List Note) (name : String) (r r' : List Language.Token) :
    notes.flatMap noteTokens ++ .ident name :: r ≠ .mark "(" :: r' := by
  cases notes with
  | nil => simp
  | cons a notes =>
    obtain ⟨key, _ | value⟩ := a <;> simp [noteTokens]

/-- Annotations, and the keyword behind them, start with no parenthesis. -/
theorem Sees.start_notes {notes : List Note} {ts : List Token} {word s : String} (h : Sees cs T)
    (hspells : SpellsAll SpellsNote notes ts) (hrun : Run (ts ++ .keyword word s :: us) cs rest) :
    ∃ t T', T = t :: T' ∧ t ≠ .mark "(" := by
  cases hspells with
  | nil =>
    obtain ⟨name, T', rfl, -⟩ := h.keyword hrun
    exact ⟨_, T', rfl, by simp⟩
  | cons hnote _ =>
    cases hnote <;>
    · obtain ⟨T', _, rfl, -⟩ := h.mark hrun
      exact ⟨_, T', rfl, by decide⟩

/-- The check of annotations takes them in print as well. -/
theorem Sees.notes {notes : List Note} {ts : List Token} {word s : String} {known : List String}
    (h : Sees cs T) (hspells : SpellsAll SpellsNote notes ts)
    (hrun : Run (ts ++ .keyword word s :: us) cs rest)
    (hvalues : ∀ a ∈ notes, ∀ v ∈ a.value, Language.Escapable v.toList)
    (hnotes : Language.notes known T = some r) :
    (∀ a ∈ notes, IsIdent a.key) ∧ ∃ vs mid, T = vs ++ r ∧
      (notes.flatMap noteTokens).length = vs.length ∧ Sees mid r ∧
      Run (.keyword word s :: us) mid rest ∧ ∀ name r',
        Language.notes known (notes.flatMap noteTokens ++ .ident name :: r') =
          some (.ident name :: r') := by
  induction hspells generalizing cs T known with
  | nil =>
    obtain ⟨name, T', rfl, -⟩ := h.keyword hrun
    rw [Language.notes_ident] at hnotes
    obtain rfl := Option.some.inj hnotes
    exact ⟨List.forall_mem_nil _, [], cs, rfl, rfl, h, hrun,
      fun name r' => Language.notes_ident known name r'⟩
  | @cons a notes ts ts' hnote hmore ih =>
    obtain ⟨hvalue, hothers⟩ := List.forall_mem_cons.mp hvalues
    cases hnote with
    | bare key =>
      obtain ⟨T₁, mid, rfl, hsees, hrun⟩ := h.mark hrun
      obtain ⟨hkey, T₂, mid, rfl, hsees, hrun⟩ := hsees.ident hrun
      obtain ⟨t, T₃, hT₂, ht⟩ := hsees.start_notes hmore hrun
      have hplain : ∀ r', T₂ ≠ .mark "(" :: r' := by
        rintro r' rfl
        exact ht (List.cons.inj hT₂).1.symm
      rw [Language.notes_bare hplain] at hnotes
      split at hnotes
      · cases hnotes
      · rename_i hknown
        obtain ⟨hkeys, vs, mid, rfl, hlength, hsees, hrun, hagain⟩ := ih hsees hrun hothers hnotes
        refine ⟨List.forall_mem_cons.mpr ⟨hkey, hkeys⟩, .mark "@" :: .ident key :: vs, mid, rfl, ?_,
          hsees, hrun, fun name r' => ?_⟩
        · simpa [noteTokens] using hlength
        · have hnext := flatMap_noteTokens_ne notes name r'
          show Language.notes known (.mark "@" :: .ident key ::
            (notes.flatMap noteTokens ++ .ident name :: r')) = _
          rw [Language.notes_bare hnext, if_neg hknown, hagain]
    | valued key literal =>
      obtain ⟨T₁, mid, rfl, hsees, hrun⟩ := h.mark hrun
      obtain ⟨hkey, T₂, mid, rfl, hsees, hrun⟩ := hsees.ident hrun
      obtain ⟨T₃, mid, rfl, hsees, hrun⟩ := hsees.mark hrun
      obtain ⟨body, T₄, mid, rfl, hsees, hrun⟩ := hsees.string hrun
      obtain ⟨T₅, mid, rfl, hsees, hrun⟩ := hsees.mark hrun
      rw [Language.notes] at hnotes
      split at hnotes
      · cases hnotes
      · rename_i hgood
        obtain ⟨hkeys, vs, mid, rfl, hlength, hsees, hrun, hagain⟩ := ih hsees hrun hothers hnotes
        refine ⟨List.forall_mem_cons.mpr ⟨hkey, hkeys⟩,
          .mark "@" :: .ident key :: .mark "(" :: .string body :: .mark ")" :: vs, mid, rfl, ?_,
          hsees, hrun, fun name r' => ?_⟩
        · simpa [noteTokens] using hlength
        · have htext := Language.isText_quoteBody (hvalue _ rfl)
          show Language.notes known (.mark "@" :: .ident key :: .mark "(" :: .string _ ::
            .mark ")" :: (notes.flatMap noteTokens ++ .ident name :: r')) = _
          rw [Language.notes, if_neg, hagain]
          rw [htext]
          simpa using (not_or.mp hgood).1

/-- A policy up to its clauses is shown by its print, and taken there again. -/
theorem Sees.policyFront {notes : List Note} {effect : Effect} {hd : Head} {ts hs : List Token}
    {s : String} {template : Bool} (h : Sees cs T) (hspells : SpellsAll SpellsNote notes ts)
    (hhead : SpellsHead hd hs)
    (hrun : Run (ts ++ .keyword effect.keyword s :: .mark "(" :: (hs ++ .mark ")" :: us)) cs rest)
    (hvalues : ∀ a ∈ notes, ∀ v ∈ a.value, Language.Escapable v.toList)
    (hcomments : ∀ e ∈ hd.entities, Language.hasComment e.toList = false)
    (hfront : Language.policyFront T = some (template, r)) :
    ∃ vs ws mid, T = vs ++ r ∧ ws.length = vs.length ∧ Sees mid r ∧ Run us mid rest ∧
      Shows (noteLines notes ++ (effect.keyword.toList ++ '(' :: (hd.text.toList ++ [')']))) ws ∧
      ∀ r', Language.policyFront (ws ++ r') = some (template, r') := by
  obtain ⟨T₁, hnotes, hbehindNotes⟩ := Option.bind_eq_some_iff.mp hfront
  obtain ⟨T₂, heffect, hbehindEffect⟩ := Option.bind_eq_some_iff.mp hbehindNotes
  obtain ⟨T₃, hopen, hslots⟩ := Option.bind_eq_some_iff.mp hbehindEffect
  obtain rfl := Language.mark_eq_some hopen
  obtain ⟨name, hmem, rfl⟩ := Language.mem_effects_of_word heffect
  obtain ⟨hkeys, vs, mid, rfl, hlength, hsees, hrun, hagain⟩ := h.notes hspells hrun hvalues hnotes
  obtain ⟨name', T₄, hT₄, hfrontOf, hname⟩ := hsees.keyword hrun
  obtain ⟨heq, rfl⟩ := List.cons.inj hT₄
  obtain rfl := Language.Token.ident.inj heq
  have heffects : ∀ name ∈ Language.effects, IsFront effect.keyword name →
      name = effect.keyword := by
    cases effect <;> decide
  have hkeyword := heffects name hmem hfrontOf
  obtain ⟨mid, hsees, hrun⟩ := hname hkeyword
  obtain ⟨T₅, mid, hT₅, hsees, hrun⟩ := hsees.mark hrun
  obtain rfl := (List.cons.inj hT₅).2
  obtain ⟨xs, mid, rfl, hshows, hsees, hrun, hhead⟩ := hsees.head hhead hrun hcomments hslots
  refine ⟨vs ++ .ident name :: .mark "(" :: xs,
    notes.flatMap noteTokens ++ .ident name :: .mark "(" :: xs, mid, by simp, by simp [hlength],
    hsees, hrun, fun rest hrest => ?_, fun r' => ?_⟩
  · have heffect := shows_ident (isIdent_of_mem_keywords (w := effect.keyword)
      (by cases effect <;> decide))
    have hword : Shows (effect.keyword.toList ++ '(' :: (hd.text.toList ++ [')']))
        (.ident effect.keyword :: .mark "(" :: xs) :=
      heffect.append (hshows.symbol (s := "(") (by decide)) fun _ _ => endsToken_cons rfl _
    rw [List.append_assoc, tokensOf?_noteLines hkeys, hword rest hrest, Option.map_map, hkeyword]
    simp [Function.comp_def]
  · simp only [List.append_assoc, List.cons_append, Language.policyFront, hagain,
      Language.word_of_mem_effects hmem, Language.mark_self, hhead, Option.bind_eq_bind,
      Option.bind_some]

end

end PolicyDialects.Cedar
