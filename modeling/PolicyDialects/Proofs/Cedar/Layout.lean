import PolicyDialects.Proofs.Cedar.Reprinting

/-!
# How texts of documents are laid out

A text that is read as a document is a sequence of tokens, with space and
comments in front of each. A reader is characterised in both directions, by the
tokens of what it has found and by what it finds in the text of tokens.

Results:

* `Run`: a text that is some tokens and a rest.
* `Reads.seq`, `Reads.orElse`, `Reads.optional`, `Reads.many`: readers put
  together.
* `reads_ident`, `reads_string`, `reads_entity`, `reads_body`: readers of single
  tokens.
-/

namespace PolicyDialects.Cedar

open Text
open Reader

/-! ## Tokens -/

/-- A token of the grammar of documents. -/
inductive Token where
  | mark (symbol : String)
  /-- A keyword, and how it is spelled. -/
  | keyword (word spelling : String)
  | ident (name : String)
  | string (literal : String)
  | entity (spelling : String)
  /-- The body of a clause, as the text between its braces. -/
  | body (text : String)
  deriving DecidableEq

namespace Token

/-- The symbols of the grammar. -/
def marks : List String := ["@", "(", ")", ",", "==", "[", "]", ";"]

/-- The words of the grammar. -/
def keywords : List String :=
  ["permit", "forbid", "principal", "action", "resource", "in", "when", "unless"]

/-- The text of a token. -/
def chars : Token → List Char
  | .mark s | .keyword _ s | .ident s | .string s | .entity s => s.toList
  | .body text => '\x7b' :: (text.toList ++ ['\x7d'])

/-- In front of this text the token is read as it is. -/
def Stands (rest : List Char) : Token → Prop
  | .mark s => s ∈ marks
  | .keyword word s => word ∈ keywords ∧ foldCase s.toList = word.toList
  | .ident name => IsIdent name ∧ Stops isIdentPart rest
  | .string literal => IsLiteral literal.toList
  | .entity e => ReadsEntity e rest
  | .body text => IsBodyChars text.toList

/-- The character that a symbol or a keyword in small letters starts with. -/
def opens? : Token → Option Char
  | .mark s | .keyword s _ => s.toList.head?
  | _ => none

end Token

/-- The text does not start with one of the characters, in small letters. -/
def Avoids (heads cs : List Char) : Prop := ∀ c ∈ cs.head?, c.toLower ∉ heads

theorem avoids_empty (heads : List Char) : Avoids heads [] := fun _ h => by cases h

theorem avoids_nil (cs : List Char) : Avoids [] cs := fun _ _ => List.not_mem_nil

theorem Avoids.left {heads more cs : List Char} (h : Avoids (heads ++ more) cs) :
    Avoids heads cs :=
  fun c hc hmem => h c hc (List.mem_append_left _ hmem)

theorem Avoids.right {heads more cs : List Char} (h : Avoids (heads ++ more) cs) :
    Avoids more cs :=
  fun c hc hmem => h c hc (List.mem_append_right _ hmem)

/-! ## Sequences of tokens -/

/-- The text is the tokens, with space and comments in front of each, and then
the rest. -/
inductive Run : List Token → List Char → List Char → Prop where
  | nil {cs : List Char} : Run [] cs cs
  | cons {t : Token} {ts : List Token} {cs mid rest : List Char}
      (h : skipSpace cs = t.chars ++ mid) (ht : t.Stands mid) (hmore : Run ts mid rest) :
      Run (t :: ts) cs rest

theorem Run.single {t : Token} {cs rest : List Char} (h : skipSpace cs = t.chars ++ rest)
    (ht : t.Stands rest) : Run [t] cs rest :=
  .cons h ht .nil

section

variable {t : Token} {ts us : List Token} {cs mid rest heads : List Char}

theorem run_append_iff :
    Run (ts ++ us) cs rest ↔ ∃ mid, Run ts cs mid ∧ Run us mid rest := by
  induction ts generalizing cs with
  | nil =>
    refine ⟨fun h => ⟨cs, .nil, h⟩, ?_⟩
    rintro ⟨_, ⟨⟩, h⟩
    exact h
  | cons t ts ih =>
    constructor
    · intro h
      cases h with
      | cons hskip ht hmore =>
        obtain ⟨mid, hts, hus⟩ := ih.mp hmore
        exact ⟨mid, .cons hskip ht hts, hus⟩
    · rintro ⟨mid, h, hus⟩
      cases h with
      | cons hskip ht hmore => exact .cons hskip ht (ih.mpr ⟨mid, hmore, hus⟩)

theorem run_single_iff : Run [t] cs rest ↔ skipSpace cs = t.chars ++ rest ∧ t.Stands rest := by
  refine ⟨fun h => ?_, fun ⟨h, ht⟩ => .single h ht⟩
  cases h with
  | cons h ht hmore =>
    cases hmore
    exact ⟨h, ht⟩

theorem Token.Stands.ne_nil (h : t.Stands rest) : t.chars ≠ [] := by
  cases t with
  | mark s =>
    have hmarks : ∀ s ∈ Token.marks, s.toList ≠ [] := by decide
    exact hmarks s h
  | keyword word s =>
    have hwords : ∀ word ∈ Token.keywords, word.toList ≠ [] := by decide
    rintro (hnil : s.toList = [])
    exact hwords word h.1 (by rw [← h.2, hnil]; rfl)
  | ident name =>
    obtain ⟨c, cs, hname, -⟩ := h.1
    exact fun hnil => List.cons_ne_nil c cs (hname.symm.trans hnil)
  | string literal =>
    obtain ⟨tail, hliteral, -⟩ := h
    exact fun hnil => List.cons_ne_nil _ tail (hliteral.symm.trans hnil)
  | entity e => exact (takeEntity_eq_some_iff.mp h.take).1
  | body text => exact List.cons_ne_nil _ _

theorem Run.length_le (h : Run ts cs rest) : rest.length ≤ cs.length := by
  induction h with
  | nil => exact Nat.le_refl _
  | @cons t _ cs mid rest hskip _ _ ih =>
    have hlength := (length_skipSpace_le cs).1
    rw [hskip, List.length_append] at hlength
    omega

/-- Tokens are not empty. -/
theorem Run.length_lt (h : Run ts cs rest) (hts : ts ≠ []) :
    rest.length < (skipSpace cs).length := by
  cases h with
  | nil => exact absurd rfl hts
  | cons hskip ht hmore =>
    have hpos := List.length_pos_iff.mpr ht.ne_nil
    have hle := hmore.length_le
    rw [hskip, List.length_append]
    omega

/-- What a symbol or a keyword starts with. -/
theorem Run.avoids (h : Run (t :: ts) cs rest) {c : Char} (hopens : t.opens? = some c)
    (hc : c ∉ heads) : Avoids heads (skipSpace cs) := by
  cases h with
  | cons hskip ht hmore =>
    rw [hskip]
    cases t with
    | mark s =>
      have hlower : ∀ s ∈ Token.marks, ∀ c ∈ s.toList, c.toLower = c := by decide
      obtain ⟨tail, hs⟩ := List.head?_eq_some_iff.mp hopens
      intro d hd
      change d ∈ (s.toList ++ _).head? at hd
      rw [hs] at hd
      obtain rfl : c = d := Option.some.inj hd
      rwa [hlower s ht c (hs ▸ List.mem_cons_self)]
    | keyword word s =>
      obtain ⟨tail, hword⟩ := List.head?_eq_some_iff.mp hopens
      have hfold := ht.2
      rw [hword] at hfold
      intro d hd
      change d ∈ (s.toList ++ _).head? at hd
      obtain ⟨x, xs, hs, hx, -⟩ := List.map_eq_cons_iff.mp hfold
      rw [hs] at hd
      obtain rfl : x = d := Option.some.inj hd
      rwa [hx]
    | _ => cases hopens

end

/-! ## Readers -/

theorem skipSpace_skipSpace (cs : List Char) : skipSpace (skipSpace cs) = skipSpace cs :=
  skipSpace_of_startsToken (startsToken_skipSpace cs).1

/-- A reader may leave the space behind its last token, or may have skipped
it. -/
def Behind (mid rest : List Char) : Prop := rest = mid ∨ rest = skipSpace mid

theorem Behind.skipSpace {mid rest : List Char} (h : Behind mid rest) :
    Cedar.skipSpace rest = Cedar.skipSpace mid := by
  rcases h with rfl | rfl
  · rfl
  · exact skipSpace_skipSpace mid

theorem Behind.length_le {mid rest : List Char} (h : Behind mid rest) :
    (Cedar.skipSpace mid).length ≤ rest.length ∧ rest.length ≤ mid.length := by
  have hle := (length_skipSpace_le mid).1
  rcases h with rfl | rfl
  · exact ⟨hle, Nat.le_refl _⟩
  · exact ⟨Nat.le_refl _, hle⟩

/-- The reader finds a value exactly in the texts that are tokens which spell the
value, given that it would not read on in what is behind them. -/
structure Reads {α : Type} (r : Reader α) (avoid : List Char)
    (spells : α → List Token → Prop) : Prop where
  found : ∀ {cs a rest}, Found r (skipSpace cs) a rest →
    ∃ ts mid, spells a ts ∧ Run ts cs mid ∧ Behind mid rest
  finds : ∀ {cs a ts mid}, spells a ts → Run ts cs mid → Avoids avoid (skipSpace mid) →
    ∃ rest, Finds r (skipSpace cs) a rest ∧ Behind mid rest

/-- In front of a text that does not start with one of the characters, the reader
finds nothing. -/
def MissesUnless {α : Type} (r : Reader α) (heads : List Char) : Prop :=
  ∀ cs, Avoids heads (skipSpace cs) → Misses r (skipSpace cs)

section

variable {α β : Type} {r s : Reader α} {avoid more heads : List Char}
  {spells spells' : α → List Token → Prop}

theorem Reads.congr (h : Reads r avoid spells) (hiff : ∀ a ts, spells a ts ↔ spells' a ts) :
    Reads r avoid spells' := by
  have heq : spells = spells' := funext fun a => funext fun ts => propext (hiff a ts)
  exact heq ▸ h

theorem Reads.rule (h : Reads r avoid spells) (name : Rule) :
    Reads (Reader.rule name r) avoid spells where
  found hfound := h.found hfound.of_rule
  finds hspells hrun havoid := by
    obtain ⟨rest, hfinds, hbehind⟩ := h.finds hspells hrun havoid
    exact ⟨rest, finds_rule hfinds, hbehind⟩

theorem Reads.map (h : Reads r avoid spells) (f : α → β) :
    Reads (r >>= fun a => Pure.pure (f a)) avoid fun b ts => ∃ a, b = f a ∧ spells a ts where
  found hfound := by
    obtain ⟨a, mid, hr, hpure⟩ := hfound.of_bind
    obtain ⟨rfl, rfl⟩ := hpure.of_pure
    obtain ⟨ts, mid', hspells, hrun, hbehind⟩ := h.found hr
    exact ⟨ts, mid', ⟨a, rfl, hspells⟩, hrun, hbehind⟩
  finds := by
    rintro cs _ ts mid ⟨a, rfl, hspells⟩ hrun havoid
    obtain ⟨rest, hfinds, hbehind⟩ := h.finds hspells hrun havoid
    exact ⟨rest, hfinds.bind (finds_pure _ _), hbehind⟩

/-- One thing after the other, with space between. What the second one starts
with must end the first. -/
theorem Reads.seq {f : α → Reader β} {next : α → β → List Token → Prop}
    (h : Reads r avoid spells) (hf : ∀ a, Reads (f a) more (next a))
    (hends : ∀ {a b ts cs mid}, next a b ts → Run ts cs mid → Avoids more (skipSpace mid) →
      Avoids avoid (skipSpace cs)) :
    Reads (r >>= fun a => space >>= fun _ => f a) more fun b ts =>
      ∃ a ts₁ ts₂, ts = ts₁ ++ ts₂ ∧ spells a ts₁ ∧ next a b ts₂ where
  found hfound := by
    obtain ⟨a, rest₁, hr, hfound⟩ := hfound.of_bind
    obtain ⟨ts₁, mid₁, hspells, hrun₁, hbehind⟩ := h.found hr
    have hnext := hfound.behind_space
    rw [hbehind.skipSpace] at hnext
    obtain ⟨ts₂, mid, hnext, hrun₂, hrest⟩ := (hf a).found hnext
    exact ⟨ts₁ ++ ts₂, mid, ⟨a, ts₁, ts₂, rfl, hspells, hnext⟩,
      run_append_iff.mpr ⟨mid₁, hrun₁, hrun₂⟩, hrest⟩
  finds := by
    rintro cs b _ mid ⟨a, ts₁, ts₂, rfl, hspells, hnext⟩ hrun havoid
    obtain ⟨mid₁, hrun₁, hrun₂⟩ := run_append_iff.mp hrun
    obtain ⟨rest₁, hfinds₁, hbehind⟩ := h.finds hspells hrun₁ (hends hnext hrun₂ havoid)
    obtain ⟨rest, hfinds, hrest⟩ := (hf a).finds hnext hrun₂ havoid
    rw [← hbehind.skipSpace] at hfinds
    exact ⟨rest, hfinds₁.bind ((finds_space rfl).bind hfinds), hrest⟩

/-- What the second of two readers finds must not be found by the first. -/
theorem Reads.orElse (h : Reads r avoid spells) (hs : Reads s more spells')
    (hmiss : ∀ {cs a ts mid}, spells' a ts → Run ts cs mid → Misses r (skipSpace cs)) :
    Reads (Reader.orElse r s) (avoid ++ more) fun a ts => spells a ts ∨ spells' a ts where
  found hfound := by
    rcases hfound.of_orElse with hr | hs'
    · obtain ⟨ts, mid, hspells, hrun, hbehind⟩ := h.found hr
      exact ⟨ts, mid, .inl hspells, hrun, hbehind⟩
    · obtain ⟨ts, mid, hspells, hrun, hbehind⟩ := hs.found hs'
      exact ⟨ts, mid, .inr hspells, hrun, hbehind⟩
  finds := by
    rintro cs a ts mid (hspells | hspells) hrun havoid
    · obtain ⟨rest, hfinds, hbehind⟩ := h.finds hspells hrun havoid.left
      exact ⟨rest, finds_orElse_left hfinds, hbehind⟩
    · obtain ⟨rest, hfinds, hbehind⟩ := hs.finds hspells hrun havoid.right
      exact ⟨rest, finds_orElse_right (hmiss hspells hrun) hfinds, hbehind⟩

/-- Nothing, or the tokens of what is found. -/
def SpellsOption (spells : α → List Token → Prop) : Option α → List Token → Prop
  | none, ts => ts = []
  | some a, ts => spells a ts

theorem Reads.optional (h : Reads r avoid spells) (hmiss : MissesUnless r heads) :
    Reads (Reader.optional r) (avoid ++ heads) (SpellsOption spells) where
  found {cs _ _} hfound := by
    rcases hfound.of_optional with ⟨a, rfl, hr⟩ | ⟨rfl, rfl⟩
    · exact h.found hr
    · exact ⟨[], cs, rfl, .nil, .inr rfl⟩
  finds := by
    rintro cs (_ | a) ts mid hspells hrun havoid
    · obtain rfl : ts = [] := hspells
      cases hrun
      exact ⟨skipSpace cs, finds_optional_none (hmiss cs havoid.right), .inr rfl⟩
    · obtain ⟨rest, hfinds, hbehind⟩ := h.finds hspells hrun havoid.left
      exact ⟨rest, finds_optional hfinds, hbehind⟩

/-- The tokens of each of the values, one after the other. -/
inductive SpellsAll (spells : α → List Token → Prop) : List α → List Token → Prop where
  | nil : SpellsAll spells [] []
  | cons {a : α} {as : List α} {ts us : List Token} (h : spells a ts)
      (hmore : SpellsAll spells as us) : SpellsAll spells (a :: as) (ts ++ us)

/-- What ends a list ends each of its values, and so does the start of another
value. -/
theorem Reads.many (h : Reads r avoid spells) (hmiss : MissesUnless r heads)
    (hne : ∀ {a ts}, spells a ts → ts ≠ [])
    (hends : ∀ {a ts cs mid}, spells a ts → Run ts cs mid → Avoids avoid (skipSpace cs)) :
    Reads (Reader.many r) (avoid ++ heads) (SpellsAll spells) where
  found {cs _ _} hfound := by
    have hmore : ∀ {mid as rest}, FoundMore r mid as rest → ∀ {cs}, Behind cs mid →
        ∃ ts last, SpellsAll spells as ts ∧ Run ts cs last ∧ Behind last rest := by
      intro mid as rest hmore
      induction hmore with
      | stop => exact fun hbehind => ⟨[], _, .nil, .nil, hbehind⟩
      | more hr _ ih =>
        intro cs hbehind
        rw [hbehind.skipSpace] at hr
        obtain ⟨ts, mid, hspells, hrun, hbehind⟩ := h.found hr
        obtain ⟨us, last, hall, hruns, hlast⟩ := ih hbehind
        exact ⟨ts ++ us, last, .cons hspells hall, run_append_iff.mpr ⟨mid, hrun, hruns⟩, hlast⟩
    rcases hfound.of_many with ⟨rfl, rfl⟩ | ⟨a, as, mid, rfl, hr, hfound⟩
    · exact ⟨[], cs, .nil, .nil, .inr rfl⟩
    · obtain ⟨ts, mid', hspells, hrun, hbehind⟩ := h.found hr
      obtain ⟨us, last, hall, hruns, hlast⟩ := hmore hfound hbehind
      exact ⟨ts ++ us, last, .cons hspells hall, run_append_iff.mpr ⟨mid', hrun, hruns⟩, hlast⟩
  finds {cs as ts mid} hspells hrun havoid := by
    -- behind any value stands another one, or what is behind the list
    have hstart : ∀ {as ts cs}, SpellsAll spells as ts → Run ts cs mid →
        Avoids avoid (skipSpace cs) := by
      intro as ts cs hall hrun
      cases hall with
      | nil =>
        cases hrun
        exact havoid.left
      | cons hspells _ =>
        obtain ⟨m, hrun, -⟩ := run_append_iff.mp hrun
        exact hends hspells hrun
    have hmore : ∀ {as ts cs rest₁}, SpellsAll spells as ts → Run ts cs mid → Behind cs rest₁ →
        ∃ rest, FindsMore r rest₁ as rest ∧ Behind mid rest := by
      intro as ts cs rest₁ hall
      induction hall generalizing cs rest₁ with
      | nil =>
        intro hrun hbehind
        cases hrun
        exact ⟨rest₁, .stop ((finds_space hbehind.skipSpace).misses (hmiss _ havoid.right)),
          hbehind⟩
      | @cons a as ts us hspells hall ih =>
        intro hrun hbehind
        obtain ⟨m, hrun₁, hrun₂⟩ := run_append_iff.mp hrun
        obtain ⟨rest₂, hfinds, hrest₂⟩ := h.finds hspells hrun₁ (hstart hall hrun₂)
        obtain ⟨rest, hmore, hrest⟩ := ih hrun₂ hrest₂
        have hlength : rest₂.length < rest₁.length :=
          calc rest₂.length ≤ m.length := hrest₂.length_le.2
            _ < (skipSpace cs).length := hrun₁.length_lt (hne hspells)
            _ ≤ rest₁.length := hbehind.length_le.1
        exact ⟨rest, .more ((finds_space hbehind.skipSpace).bind hfinds) hlength hmore, hrest⟩
    cases hspells with
    | nil =>
      cases hrun
      exact ⟨_, finds_many_nil (hmiss _ havoid.right), .inr rfl⟩
    | cons hspells hall =>
      obtain ⟨m, hrun₁, hrun₂⟩ := run_append_iff.mp hrun
      obtain ⟨rest₁, hfinds, hbehind⟩ := h.finds hspells hrun₁ (hstart hall hrun₂)
      obtain ⟨rest, hmore, hrest⟩ := hmore hall hrun₂ hbehind
      exact ⟨rest, finds_many_cons hfinds hmore, hrest⟩

end

/-! ## Readers of tokens -/

/-- An entity is read up to what ends it. -/
theorem ReadsEntity.ends {e : String} {rest : List Char} (h : ReadsEntity e rest) :
    EndsEntity rest := by
  have hchars := (takeEntity_eq_some_iff.mp h.take).2
  have hends := endsEntity_takeEntityChars (e.toList ++ rest)
  rwa [hchars] at hends

theorem reads_mark {s : String} {chars : List Char} (hs : s ∈ Token.marks)
    (hchars : s.toList = chars) : Reads (symbol chars) [] fun _ ts => ts = [.mark s] where
  found {cs _ rest} hfound := by
    refine ⟨_, rest, rfl, .single ?_ hs, .inl rfl⟩
    show _ = s.toList ++ rest
    rw [hchars, hfound.of_symbol]
  finds := by
    rintro cs ⟨⟩ _ mid rfl hrun -
    rw [(run_single_iff.mp hrun).1]
    show ∃ rest, Finds (symbol chars) (s.toList ++ mid) () rest ∧ _
    rw [hchars]
    exact ⟨mid, finds_symbol _ _, .inl rfl⟩

theorem reads_keyword {w : String} (hword : w ∈ Token.keywords) :
    Reads (keyword w) [] fun _ ts => ∃ s, ts = [.keyword w s] where
  found {cs _ rest} hfound := by
    obtain ⟨v, hcs, hfold⟩ := hfound.of_keyword
    refine ⟨_, rest, ⟨String.ofList v, rfl⟩, .single ?_ ⟨hword, ?_⟩, .inl rfl⟩
    · rw [hcs]
      show _ = (String.ofList v).toList ++ rest
      rw [String.toList_ofList]
    · rw [String.toList_ofList, hfold]
  finds := by
    rintro cs ⟨⟩ _ mid ⟨s, rfl⟩ hrun -
    obtain ⟨hcs, -, hfold⟩ := run_single_iff.mp hrun
    refine ⟨mid, fun offset => ?_, .inl rfl⟩
    have hlength : s.toList.length = w.toList.length := by
      rw [← hfold, foldCase, List.length_map]
    have htake : takeKeyword w.toList (s.toList ++ mid) = some mid := by
      rw [takeKeyword, ← hlength, List.take_left, List.drop_left, if_pos hfold]
    rw [hcs]
    refine ⟨((⟨offset, s.toList ++ mid⟩ : Place).at mid).offset, [], ?_⟩
    show keyword w ⟨offset, s.toList ++ mid⟩ = _
    rw [keyword, htake]
    rfl

theorem Found.of_finish {cs rest : List Char} (h : Found finish cs () rest) :
    cs = [] ∧ rest = [] := by
  obtain ⟨o, o', trials, h⟩ := h.of_rule
  dsimp only at h
  split at h
  · rename_i hempty
    obtain rfl := List.isEmpty_iff.mp hempty
    exact ⟨rfl, (congrArg Place.text (Prod.mk.inj (Option.some.inj (Prod.mk.inj h).1)).2).symm⟩
  · cases h

theorem reads_ident : Reads ident [] fun name ts => ts = [.ident name] where
  found {cs name rest} hfound := by
    obtain ⟨hident, hcs, hstops⟩ := hfound.of_ident
    exact ⟨_, rest, rfl, .single hcs ⟨hident, hstops⟩, .inl rfl⟩
  finds := by
    rintro cs name _ mid rfl hrun -
    obtain ⟨hcs, hident, hstops⟩ := run_single_iff.mp hrun
    rw [hcs]
    exact ⟨mid, finds_ident hident hstops, .inl rfl⟩

theorem reads_string : Reads string [] fun value ts =>
    ∃ literal : String, ts = [.string literal] ∧
      value = String.ofList (stringValue literal.toList) where
  found {cs value rest} hfound := by
    obtain ⟨literal, mid, hliteral, hfound⟩ := hfound.of_bind
    obtain ⟨rfl, rfl⟩ := hfound.of_pure
    obtain ⟨hs, hcs⟩ := isLiteral_of_takeString hliteral.of_rule.of_shape
    exact ⟨_, rest, ⟨literal, rfl, rfl⟩, .single hcs hs, .inl rfl⟩
  finds := by
    rintro cs _ _ mid ⟨literal, rfl, rfl⟩ hrun -
    obtain ⟨hcs, hs⟩ := run_single_iff.mp hrun
    rw [hcs]
    have hshape := finds_shape (takeString_append hs mid)
    rw [String.ofList_toList] at hshape
    exact ⟨mid, (finds_rule hshape).bind (finds_pure _ _), .inl rfl⟩

theorem reads_entity : Reads entity [] fun e ts => ts = [.entity e] where
  found {cs e rest} hfound := by
    have htake := hfound.of_rule.of_shape
    have hstarts := (startsToken_skipSpace cs).1
    have hcs := append_takeEntityChars (skipSpace cs)
    rw [(takeEntity_eq_some_iff.mp htake).2] at hcs
    rw [← hcs] at htake hstarts
    exact ⟨_, rest, rfl, .single hcs.symm ⟨htake, hstarts⟩, .inl rfl⟩
  finds := by
    rintro cs e _ mid rfl hrun -
    obtain ⟨hcs, he⟩ := run_single_iff.mp hrun
    rw [hcs]
    exact ⟨mid, finds_entity he, .inl rfl⟩

theorem reads_body : Reads body [] fun b ts => ∃ text, ts = [.body text] ∧ b = trimmed text where
  found {cs b rest} hfound := by
    obtain ⟨_, mid, hopen, hfound⟩ := hfound.of_rule.of_bind
    obtain ⟨text, _, htake, hfound⟩ := hfound.of_bind
    obtain ⟨_, _, hclose, hfound⟩ := hfound.of_bind
    obtain ⟨rfl, rfl⟩ := hfound.of_pure
    have hbody := isBodyChars_takeBody mid
    have hmid := append_takeBody mid
    rw [Option.some.inj htake.of_rule.of_shape] at hbody hmid
    refine ⟨_, rest, ⟨text, rfl, rfl⟩, .single ?_ hbody, .inl rfl⟩
    rw [hopen.of_symbol, ← hmid, hclose.of_symbol]
    simp [Token.chars]
  finds := by
    rintro cs _ _ mid ⟨text, rfl, rfl⟩ hrun -
    obtain ⟨hcs, hbody⟩ := run_single_iff.mp hrun
    have htext : skipSpace cs = '\x7b' :: (text.toList ++ '\x7d' :: mid) := by
      rw [hcs]
      simp [Token.chars]
    have hshape : Finds (shape fun cs => some (takeBody cs)) (text.toList ++ '\x7d' :: mid)
        (String.ofList text.toList) ('\x7d' :: mid) :=
      finds_shape (congrArg some (takeBody_append hbody mid))
    rw [String.ofList_toList] at hshape
    rw [htext]
    refine ⟨mid, finds_rule ((finds_mark '\x7b' _).bind ((finds_rule hshape).bind ?_)), .inl rfl⟩
    exact (finds_mark '\x7d' _).bind (finds_pure _ _)

/-! ## What a reader starts with -/

section

variable {α β : Type} {r s : Reader α} {heads more : List Char}

theorem MissesUnless.bind (h : MissesUnless r heads) (f : α → Reader β) :
    MissesUnless (r >>= f) heads :=
  fun cs hcs => (h cs hcs).bind

theorem MissesUnless.rule (h : MissesUnless r heads) (name : Rule) :
    MissesUnless (Reader.rule name r) heads :=
  fun cs hcs => misses_rule (h cs hcs)

theorem MissesUnless.orElse (h : MissesUnless r heads) (hs : MissesUnless s more) :
    MissesUnless (Reader.orElse r s) (heads ++ more) :=
  fun cs hcs => misses_orElse (h cs hcs.left) (hs cs hcs.right)

theorem missesUnless_symbol {c : Char} (hc : c.toLower = c) (cs : List Char) :
    MissesUnless (symbol (c :: cs)) [c] := by
  intro ds hds
  refine misses_symbol ?_
  cases hskip : skipSpace ds with
  | nil => rfl
  | cons d ds =>
    have hne : d ≠ c := by
      rintro rfl
      exact hds d (by rw [hskip]; rfl) (by rw [hc]; exact List.mem_singleton_self d)
    rw [stripPrefix?, if_neg fun h => hne h.symm]

theorem missesUnless_keyword {word : String} {w : Char} {ws : List Char}
    (hword : word.toList = w :: ws) : MissesUnless (keyword word) [w] := by
  intro ds hds
  refine misses_keyword (if_neg fun h => ?_)
  cases hskip : skipSpace ds with
  | nil =>
    rw [hskip, hword, List.take_nil] at h
    cases h
  | cons d ds =>
    rw [hskip, hword, List.length_cons, List.take_succ_cons] at h
    refine hds d (by rw [hskip]; rfl) ?_
    rw [(List.cons.inj h).1]
    exact List.mem_singleton_self w

end

end PolicyDialects.Cedar
