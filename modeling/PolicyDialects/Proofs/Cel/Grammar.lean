import PolicyDialects.Proofs.Cel.Reading

/-!
# Expressions and the pieces that spell them

The reader puts an expression together from the pieces that it takes, by one
rule of the grammar after the other. A relation of expressions and pieces that
every rule keeps thus holds of all that is read.

* `FollowsGrammar` — the rules. Parentheses leave no node behind.
* `Piece.HasNoValue` — literals without a value.

Results:

* `FollowsGrammar.of_parse`: what every rule keeps holds of a text that was read.
* `valued_of_parse`, `exists_hasNoValue_of_parse`: every literal in a text
  that was read has a value, and one in a text that was refused for want of a
  value has none.
* `named_of_parse`: every name in a text that was read is an identifier.
-/

namespace PolicyDialects.Cel

/-! ## The rules -/

/-- The pieces of a name where an operand starts. -/
inductive IsHead (name : String) : List Piece → Prop where
  | plain : IsHead name [word name]
  | dotted (text : List Char) : IsHead name [(.symbol .dot, text), word name]

/-- The reserved words that are constants. -/
def reservedConstants : List (Symbol × Constant) :=
  [(.true, .bool true), (.false, .bool false), (.null, .null)]

/-- Items and the bracket that closes them. -/
inductive ItemPieces {α : Type} (property : α → List Piece → Prop) (close : Symbol) :
    List α → List Piece → Prop where
  | nil (text : List Char) : ItemPieces property close [] [(.symbol close, text)]
  | last {x : α} {ps : List Piece} (hx : property x ps) (text : List Char) :
      ItemPieces property close [x] (ps ++ [(.symbol close, text)])
  | cons {x : α} {xs : List α} {ps qs : List Piece} (hx : property x ps) (text : List Char)
      (hxs : ItemPieces property close xs qs) :
      ItemPieces property close (x :: xs) (ps ++ [(.symbol .comma, text)] ++ qs)

/-- Two expressions with a colon between them. -/
def EntryPieces (p : Tree → List Piece → Prop) (entry : Tree × Tree) (ps : List Piece) : Prop :=
  ∃ ks vs text, p entry.1 ks ∧ p entry.2 vs ∧ ps = ks ++ [(.symbol .colon, text)] ++ vs

/-- A name, a colon and an expression. -/
def FieldPieces (p : Tree → List Piece → Prop) (field : String × Tree) (ps : List Piece) : Prop :=
  ∃ vs text, p field.2 vs ∧ ps = [word field.1] ++ [(.symbol .colon, text)] ++ vs

/-- Each rule of the grammar keeps the relation. -/
structure FollowsGrammar (p : Tree → List Piece → Prop) : Prop where
  ident {name : String} {ps : List Piece} (h : IsHead name ps) : p (.ident name) ps
  literal {kind : LiteralKind} {text : List Char} {c : Constant}
    (h : literalValue? kind text = some c) : p (.constant c) [(.literal kind, text)]
  reserved {s : Symbol} {c : Constant} (h : (s, c) ∈ reservedConstants) (text : List Char) :
    p (.constant c) [(.symbol s, text)]
  call {name : String} {args : List Tree} {ps qs : List Piece} (hname : IsHead name ps)
    (hargs : ItemPieces p .rightParen args qs) (text : List Char) :
    p (.call name args) (ps ++ [(.symbol .leftParen, text)] ++ qs)
  list {items : List Tree} {qs : List Piece} (h : ItemPieces p .rightBracket items qs)
    (text : List Char) : p (.list items) ([(.symbol .leftBracket, text)] ++ qs)
  map {entries : List (Tree × Tree)} {qs : List Piece}
    (h : ItemPieces (EntryPieces p) .rightBrace entries qs) (text : List Char) :
    p (.map entries) ([(.symbol .leftBrace, text)] ++ qs)
  paren {e : Tree} {ps : List Piece} (he : p e ps) (start finish : List Char) :
    p e ([(.symbol .leftParen, start)] ++ ps ++ [(.symbol .rightParen, finish)])
  select {e : Tree} {ps : List Piece} (he : p e ps) (name : String) (text : List Char) :
    p (.select e name) (ps ++ [(.symbol .dot, text)] ++ [word name])
  methodCall {e : Tree} {name : String} {args : List Tree} {ps qs : List Piece} (he : p e ps)
    (hargs : ItemPieces p .rightParen args qs) (dot paren : List Char) :
    p (.methodCall e name args)
      (ps ++ [(.symbol .dot, dot)] ++ [word name] ++ [(.symbol .leftParen, paren)] ++ qs)
  index {e i : Tree} {ps qs : List Piece} (he : p e ps) (hi : p i qs) (start finish : List Char) :
    p (.index e i)
      (ps ++ [(.symbol .leftBracket, start)] ++ qs ++ [(.symbol .rightBracket, finish)])
  fields {e : Tree} {values : List (String × Tree)} {ps qs : List Piece} (he : p e ps)
    (hvalues : ItemPieces (FieldPieces p) .rightBrace values qs) (text : List Char) :
    p (.fields e values) (ps ++ [(.symbol .leftBrace, text)] ++ qs)
  unary {e : Tree} {op : Negation} {token : Token} {ps : List Piece}
    (hop : negation? token = some op) (he : p e ps) (text : List Char) :
    p (.unary op e) ([(token, text)] ++ ps)
  arithmetic {l r : Tree} {ps qs : List Piece} (hl : p l ps) (hr : p r qs) (op : Arithmetic)
    (s : Symbol) (text : List Char) : p (.arithmetic op l r) (ps ++ [(.symbol s, text)] ++ qs)
  relation {l r : Tree} {s : Symbol} {ps qs : List Piece} (hs : s ∈ relations) (hl : p l ps)
    (hr : p r qs) (op : Relation) (text : List Char) :
    p (.relation op l r) (ps ++ [(.symbol s, text)] ++ qs)
  and {l r : Tree} {ps qs : List Piece} (hl : p l ps) (hr : p r qs) (text : List Char) :
    p (.and l r) (ps ++ [(.symbol .andAnd, text)] ++ qs)
  or {l r : Tree} {ps qs : List Piece} (hl : p l ps) (hr : p r qs) (text : List Char) :
    p (.or l r) (ps ++ [(.symbol .orOr, text)] ++ qs)
  ternary {c y n : Tree} {ps qs rs : List Piece} (hc : p c ps) (hy : p y qs) (hn : p n rs)
    (question colon : List Char) :
    p (.ternary c y n)
      (ps ++ [(.symbol .question, question)] ++ qs ++ [(.symbol .colon, colon)] ++ rs)

/-- The operators of a level keep the relation. -/
def Level.Keeps (level : Level) (p : Tree → List Piece → Prop) : Prop :=
  ∀ {t join}, level t = some join → ∀ {l r : Tree} {ps qs : List Piece} (text : List Char),
    p l ps → p r qs → p (join l r) (ps ++ [(t, text)] ++ qs)

section

variable {p : Tree → List Piece → Prop}

theorem FollowsGrammar.mul (hp : FollowsGrammar p) : Level.mul.Keeps p := by
  intro t join h l r ps qs text hl hr
  unfold Level.mul at h
  split at h <;> cases h <;> exact hp.arithmetic hl hr _ _ text

theorem FollowsGrammar.add (hp : FollowsGrammar p) : Level.add.Keeps p := by
  intro t join h l r ps qs text hl hr
  unfold Level.add at h
  split at h <;> cases h <;> exact hp.arithmetic hl hr _ _ text

theorem FollowsGrammar.rel (hp : FollowsGrammar p) : Level.rel.Keeps p := by
  intro t join h l r ps qs text hl hr
  unfold Level.rel at h
  split at h <;> cases h <;> exact hp.relation (by decide) hl hr _ text

theorem FollowsGrammar.conjunction (hp : FollowsGrammar p) : Level.and.Keeps p := by
  intro t join h l r ps qs text hl hr
  unfold Level.and at h
  split at h <;> cases h
  exact hp.and hl hr text

theorem FollowsGrammar.disjunction (hp : FollowsGrammar p) : Level.or.Keeps p := by
  intro t join h l r ps qs text hl hr
  unfold Level.or at h
  split at h <;> cases h
  exact hp.or hl hr text

end

/-! ## The pieces that the readers take -/

/-- A literal that has no value. -/
def Piece.HasNoValue (x : Piece) : Prop := ∃ kind, x.1 = .literal kind ∧ literalValue? kind x.2 = none

/-- The lexemes start with ones that go on with the pieces `ps` as the property
has it, and the others are left. -/
def Extends {α : Type} (property : α → List Piece → Prop) (ps : List Piece) (ts : List Lexeme)
    (r : α × List Lexeme) : Prop :=
  ∃ ls, ts = ls ++ r.2 ∧ property r.1 (ps ++ ls.map Lexeme.piece)

/-- What is returned has the property, and only a lexeme without a value makes the
reader fail for want of one. -/
structure Answers {β : Type} (post : List Piece → List Lexeme → β → Prop) (ps : List Piece)
    (ts : List Lexeme) (r : Except Fault β) : Prop where
  result : Yields (post ps ts) r
  failure : r = .error .noValue → ∃ t ∈ ts, t.piece.HasNoValue

/-- What the reader returns has the property with the pieces it takes. -/
def Covers {α : Type} (property : α → List Piece → Prop)
    (reader : List Lexeme → Except Fault (α × List Lexeme)) : Prop :=
  ∀ ts, Answers (Extends property) [] ts (reader ts)

/-- What holds behind some pieces also holds in front of them. -/
def Rewinds {α : Type} (post : List Piece → List Lexeme → α → Prop) : Prop :=
  ∀ ⦃ps ls ts y⦄, post (ps ++ ls.map Lexeme.piece) ts y → post ps (ls ++ ts) y

section

variable {α β γ : Type} {post : List Piece → List Lexeme → β → Prop}
  {post' : List Piece → List Lexeme → γ → Prop} {q : α → List Piece → Prop}
  {ps ps' : List Piece} {ts : List Lexeme} {ending : Ending}

theorem Answers.ok {y : β} (h : post ps ts y) : Answers post ps ts (.ok y) :=
  ⟨.ok h, fun hfail => absurd hfail ok_ne_error⟩

theorem Answers.error {fault : Fault} (h : fault ≠ .noValue) : Answers post ps ts (.error fault) :=
  ⟨.error _, fun hfail => absurd hfail (error_ne_error h)⟩

/-- A failure that is passed on. -/
theorem Answers.of_error {r : Except Fault β} {fault : Fault} (h : Answers post ps ts r)
    (hr : r = .error fault) : Answers post' ps' ts (.error fault) :=
  ⟨.error _, fun hfail => h.failure (hr.trans (congrArg _ (Except.error.inj hfail)))⟩

theorem Answers.map {r : Except Fault β} {f : β → γ} (h : Answers post ps ts r)
    (hf : ∀ y, post ps ts y → post' ps' ts (f y)) : Answers post' ps' ts (r.map f) := by
  cases r with
  | error fault => exact h.of_error rfl
  | ok y => exact .ok (hf y (h.result y rfl))

theorem extends_self {x : α} (h : q x ps) : Extends q ps ts (x, ts) :=
  ⟨[], rfl, by rw [List.map_nil, List.append_nil]; exact h⟩

theorem rewinds_extends : Rewinds (Extends q) := by
  rintro ps ls ts y ⟨ls', rfl, hq⟩
  refine ⟨ls ++ ls', (List.append_assoc _ _ _).symm, ?_⟩
  rw [List.map_append, ← List.append_assoc]
  exact hq

theorem Rewinds.option (h : Rewinds post) :
    Rewinds fun ps ts (r : Option β) => ∀ y ∈ r, post ps ts y :=
  fun _ _ _ _ hr y hy => h (hr y hy)

theorem Rewinds.answers_append (hpost : Rewinds post) {ls : List Lexeme} {r : Except Fault β}
    (h : Answers post (ps ++ ls.map Lexeme.piece) ts r) : Answers post ps (ls ++ ts) r := by
  refine ⟨h.result.imp fun y hy => hpost hy, fun hfail => ?_⟩
  obtain ⟨t, ht, hnone⟩ := h.failure hfail
  exact ⟨t, List.mem_append_right _ ht, hnone⟩

theorem Rewinds.answers_cons (hpost : Rewinds post) {t : Lexeme} {r : Except Fault β}
    (h : Answers post (ps ++ [t.piece]) ts r) : Answers post ps (t :: ts) r :=
  show Answers post ps ([t] ++ ts) r from hpost.answers_append h

/-- What is done with a result goes on with the pieces it was read from. -/
theorem Covers.bind {reader : List Lexeme → Except Fault (α × List Lexeme)}
    {k : α × List Lexeme → Except Fault β} (h : Covers q reader) (hpost : Rewinds post)
    (hk : ∀ x qs rest, q x qs → Answers post (ps ++ qs) rest (k (x, rest))) :
    Answers post ps ts (reader ts >>= k) := by
  have hread := h ts
  generalize reader ts = r at hread
  cases r with
  | error fault => exact hread.of_error rfl
  | ok y =>
    obtain ⟨x, rest⟩ := y
    obtain ⟨ls, rfl, hq⟩ := hread.result _ rfl
    exact hpost.answers_append (hk x _ rest hq)

theorem piece_of_token {t : Lexeme} {token : Token} (h : t.token = token) :
    t.piece = (token, t.text) := by rw [Lexeme.piece, h]

theorem fault_ne_noValue (ending : Ending) : ending.fault ≠ .noValue := by
  cases ending <;> simp [Ending.fault]

theorem faultAt_ne_noValue (ending : Ending) (ts : List Lexeme) :
    faultAt ending ts ≠ .noValue := by
  cases ts with
  | nil => exact fault_ne_noValue ending
  | cons t ts => simp [faultAt]

/-- A symbol that must come next comes next, or it is no literal that fails. -/
theorem expect_cases (ending : Ending) (s : Symbol) (ts : List Lexeme) :
    (∃ t rest, ts = t :: rest ∧ t.token = .symbol s ∧ expect ending s ts = .ok rest) ∨
      ∃ fault, fault ≠ .noValue ∧ expect ending s ts = .error fault := by
  cases ts with
  | nil => exact .inr ⟨_, fault_ne_noValue ending, rfl⟩
  | cons t rest =>
    rw [expect]
    split_ifs with ht
    · exact .inl ⟨t, rest, rfl, ht, rfl⟩
    · exact .inr ⟨.unexpected t, by simp, rfl⟩

theorem exists_of_expect {s : Symbol} {rest : List Lexeme} (h : expect ending s ts = .ok rest) :
    ∃ t, ts = t :: rest ∧ t.token = .symbol s := by
  rcases expect_cases ending s ts with ⟨t, rest', rfl, ht, heq⟩ | ⟨fault, -, heq⟩
  · obtain rfl := Except.ok.inj (heq.symm.trans h)
    exact ⟨t, rfl, ht⟩
  · rw [heq] at h
    cases h

theorem answers_expect_bind {s : Symbol} {k : List Lexeme → Except Fault β} (hpost : Rewinds post)
    (hk : ∀ text rest, Answers post (ps ++ [(.symbol s, text)]) rest (k rest)) :
    Answers post ps ts (expect ending s ts >>= k) := by
  rcases expect_cases ending s ts with ⟨t, rest, rfl, ht, heq⟩ | ⟨fault, hfault, heq⟩
  · rw [heq]
    refine hpost.answers_cons ?_
    rw [piece_of_token ht]
    exact hk t.text rest
  · rw [heq]
    exact .error hfault

theorem covers_expectName : Covers (fun name qs => qs = [word name]) (expectName ending) := by
  intro ts
  cases ts with
  | nil => exact .error (fault_ne_noValue ending)
  | cons t ts =>
    rw [expectName]
    split_ifs with ht
    · refine .ok ⟨[t], rfl, ?_⟩
      show [t.piece] = [word (String.ofList t.text)]
      rw [Lexeme.piece, ht, word, String.toList_ofList]
    · exact .error (by simp)

theorem covers_items {close : Symbol} {item : List Lexeme → Except Fault (α × List Lexeme)}
    (hitem : Covers q item) : Covers (ItemPieces q close) (items ending close item) := by
  intro ts
  fun_induction items ending close item ts with
  | case1 ts rest hclose =>
    obtain ⟨t, rfl, ht⟩ := exists_of_expect hclose
    refine .ok ⟨[t], rfl, ?_⟩
    show ItemPieces q close [] [t.piece]
    rw [piece_of_token ht]
    exact .nil t.text
  | case2 ts _ _ fault hx => exact (hitem ts).of_error hx
  | case3 ts _ _ x after hx rest hcomma _ ih =>
    obtain ⟨ls, rfl, hq⟩ := (hitem ts).result _ hx
    obtain ⟨t, rfl, ht⟩ := exists_of_expect hcomma
    rw [List.append_cons]
    refine rewinds_extends.answers_append (ih.map fun r hr => ?_)
    obtain ⟨ls', rfl, hxs⟩ := hr
    refine ⟨ls', rfl, ?_⟩
    rw [List.nil_append, List.map_append, List.map_singleton, piece_of_token ht]
    exact .cons hq t.text hxs
  | case4 => exact .error (faultAt_ne_noValue _ _)
  | case5 ts _ _ x after hx _ _ =>
    obtain ⟨ls, rfl, hq⟩ := (hitem ts).result _ hx
    refine rewinds_extends.answers_append ?_
    rcases expect_cases ending close after with ⟨t, rest, rfl, ht, heq⟩ | ⟨fault, hfault, heq⟩
    · rw [heq]
      refine .ok ⟨[t], rfl, ?_⟩
      rw [List.map_singleton, piece_of_token ht]
      exact .last hq t.text
    · rw [heq]
      exact .error hfault

end

section

variable {p : Tree → List Piece → Prop} {ps : List Piece} {ending : Ending} {inner : Reader}

theorem covers_field (hinner : Covers p inner) : Covers (FieldPieces p) (field ending inner) := by
  intro ts
  refine covers_expectName.bind rewinds_extends fun name qs rest hqs => ?_
  subst hqs
  refine answers_expect_bind rewinds_extends fun text rest => ?_
  exact hinner.bind rewinds_extends fun e vs rest he => .ok (extends_self ⟨vs, text, he, rfl⟩)

theorem covers_entry (hinner : Covers p inner) : Covers (EntryPieces p) (entry ending inner) := by
  intro ts
  refine hinner.bind rewinds_extends fun key ks rest hkey => ?_
  refine answers_expect_bind rewinds_extends fun text rest => ?_
  exact hinner.bind rewinds_extends fun value vs rest hvalue =>
    .ok (extends_self ⟨ks, vs, text, hkey, hvalue, rfl⟩)

/-- A literal is read as its value, and only without one it has none. -/
theorem literal_cases (ending : Ending) (kind : LiteralKind) (text : List Char)
    (ts : List Lexeme) :
    (∃ c, literalValue? kind text = some c ∧ literal ending kind text ts = .ok (.constant c)) ∨
      ∃ fault, literal ending kind text ts = .error fault ∧
        (fault = .noValue → literalValue? kind text = none) := by
  have hvalue : (∃ c, literalValue? kind text = some c ∧
      literal.value kind text = .ok (.constant c)) ∨
      ∃ fault, literal.value kind text = .error fault ∧
        (fault = .noValue → literalValue? kind text = none) := by
    unfold literal.value
    split
    · rename_i c hc
      exact .inl ⟨c, hc, rfl⟩
    · rename_i hc
      exact .inr ⟨_, rfl, fun _ => hc⟩
  unfold literal
  split
  · split
    · exact .inr ⟨_, rfl, by simp⟩
    · exact hvalue
  · split
    · split_ifs
      · exact hvalue
      · exact .inr ⟨_, rfl, by simp⟩
    · exact .inr ⟨_, rfl, by simp⟩

/-- A name, or a call of it, behind the pieces of the name. -/
theorem answers_named (hp : FollowsGrammar p) {name : String} (hinner : Covers p inner)
    (h : IsHead name ps) (ts : List Lexeme) :
    Answers (Extends p) ps ts (named ending inner name ts) := by
  cases ts with
  | nil => exact .ok (extends_self (hp.ident h))
  | cons t ts =>
    rw [named]
    split_ifs with ht
    · refine rewinds_extends.answers_cons ?_
      rw [piece_of_token ht]
      exact (covers_items hinner).bind rewinds_extends fun args qs rest hargs =>
        .ok (extends_self (hp.call h hargs t.text))
    · exact .ok (extends_self (hp.ident h))

theorem covers_primary (hp : FollowsGrammar p) (hinner : Covers p inner) :
    Covers p (primary ending inner) := by
  intro ts
  cases ts with
  | nil => exact .error (fault_ne_noValue ending)
  | cons t ts =>
    have hreserved : ∀ {s : Symbol} {c : Constant}, (s, c) ∈ reservedConstants →
        t.token = .symbol s → Answers (Extends p) [] (t :: ts) (.ok (.constant c, ts)) := by
      intro s c hmem ht
      refine .ok ⟨[t], rfl, ?_⟩
      rw [List.map_singleton, piece_of_token ht]
      exact hp.reserved hmem t.text
    rw [primary]
    split
    · rename_i ht
      have hword : t.piece = word (String.ofList t.text) := by
        rw [piece_of_token ht, word, String.toList_ofList]
      refine rewinds_extends.answers_cons (answers_named hp hinner ?_ ts)
      rw [hword]
      exact .plain
    · rename_i kind ht
      rcases literal_cases ending kind t.text ts with ⟨c, hc, heq⟩ | ⟨fault, heq, hnone⟩
      · rw [heq]
        refine .ok ⟨[t], rfl, ?_⟩
        rw [List.map_singleton, piece_of_token ht]
        exact hp.literal hc
      · rw [heq]
        refine ⟨.error _, fun hfail => ⟨t, List.mem_cons_self, kind, ht, hnone ?_⟩⟩
        exact Except.error.inj hfail
    · rename_i ht
      refine rewinds_extends.answers_cons ?_
      rw [piece_of_token ht]
      refine covers_expectName.bind rewinds_extends fun name qs rest hqs => ?_
      subst hqs
      exact answers_named hp hinner (.dotted t.text) rest
    · exact hreserved (s := .true) (by decide) ‹_›
    · exact hreserved (s := .false) (by decide) ‹_›
    · exact hreserved (s := .null) (by decide) ‹_›
    · rename_i ht
      refine rewinds_extends.answers_cons ?_
      rw [piece_of_token ht]
      exact (covers_items hinner).bind rewinds_extends fun es qs rest hes =>
        .ok (extends_self (hp.list hes t.text))
    · rename_i ht
      refine rewinds_extends.answers_cons ?_
      rw [piece_of_token ht]
      exact (covers_items (covers_entry hinner)).bind rewinds_extends fun es qs rest hes =>
        .ok (extends_self (hp.map hes t.text))
    · rename_i ht
      refine rewinds_extends.answers_cons ?_
      rw [piece_of_token ht]
      refine hinner.bind rewinds_extends fun e qs rest he => ?_
      refine answers_expect_bind rewinds_extends fun text rest => ?_
      exact .ok (extends_self (hp.paren he t.text text))
    · exact .error (by simp)

/-- What `suffix` returns goes on with the pieces before it. -/
theorem answers_suffix (hp : FollowsGrammar p) (hinner : Covers p inner) {e : Tree} (he : p e ps)
    (ts : List Lexeme) :
    Answers (fun ps ts r => ∀ y ∈ r, Extends p ps ts y) ps ts (suffix ending inner e ts) := by
  have hrewinds := Rewinds.option (rewinds_extends (q := p))
  have hsome : ∀ {e' : Tree} {ps : List Piece} {rest : List Lexeme}, p e' ps →
      Answers (fun ps ts r => ∀ y ∈ r, Extends p ps ts y) ps rest (.ok (some (e', rest))) := by
    intro e' ps rest he'
    exact .ok fun y hy => Option.some.inj hy ▸ extends_self he'
  cases ts with
  | nil => exact .ok (by simp)
  | cons t ts =>
    rw [suffix]
    split
    · rename_i ht
      refine hrewinds.answers_cons (covers_expectName.bind hrewinds fun name qs rest hqs => ?_)
      subst hqs
      rw [piece_of_token ht]
      have hselect := hp.select he name t.text
      dsimp only
      split
      · rename_i paren rest
        split_ifs with hparen
        · refine hrewinds.answers_cons ((covers_items hinner).bind hrewinds
            fun args qs rest hargs => hsome ?_)
          rw [piece_of_token hparen]
          exact hp.methodCall he hargs t.text paren.text
        · exact hsome hselect
      · exact hsome hselect
    · rename_i ht
      refine hrewinds.answers_cons (hinner.bind hrewinds fun i _ rest hi => ?_)
      rw [piece_of_token ht]
      exact answers_expect_bind hrewinds fun text rest => hsome (hp.index he hi t.text text)
    · rename_i ht
      refine hrewinds.answers_cons ((covers_items (covers_field hinner)).bind hrewinds
        fun vs _ rest hvs => hsome ?_)
      rw [piece_of_token ht]
      exact hp.fields he hvs t.text
    · exact .ok (by simp)

theorem answers_members (hp : FollowsGrammar p) (hinner : Covers p inner) {e : Tree} (he : p e ps)
    (ts : List Lexeme) : Answers (Extends p) ps ts (members ending inner e ts) := by
  fun_induction members ending inner e ts generalizing ps with
  | case1 e ts fault hsuffix => exact (answers_suffix hp hinner he ts).of_error hsuffix
  | case2 e ts => exact .ok (extends_self he)
  | case3 e ts e' rest hsuffix _ ih =>
    obtain ⟨ls, rfl, he'⟩ := (answers_suffix hp hinner he ts).result _ hsuffix _ rfl
    exact rewinds_extends.answers_append (ih he')
  | case4 e ts e' rest hsuffix =>
    exact .ok ((answers_suffix hp hinner he ts).result _ hsuffix _ rfl)

theorem covers_member (hp : FollowsGrammar p) (hinner : Covers p inner) :
    Covers p (member ending inner) :=
  fun _ => (covers_primary hp hinner).bind rewinds_extends fun _ _ rest he =>
    answers_members hp hinner he rest

theorem covers_unary (hp : FollowsGrammar p) (hinner : Covers p inner) :
    Covers p (unary ending inner) := by
  intro ts
  cases ts with
  | nil => exact .error (fault_ne_noValue ending)
  | cons t ts =>
    rw [unary]
    split
    · rename_i op hop
      refine rewinds_extends.answers_cons ((covers_member hp hinner ts).map fun r hr => ?_)
      obtain ⟨ls, rfl, he⟩ := hr
      exact ⟨ls, rfl, hp.unary hop he t.text⟩
    · exact covers_member hp hinner _

theorem answers_chainFrom {level : Level} {operand : Reader} (hlevel : level.Keeps p)
    (hoperand : Covers p operand) {left : Tree} (hleft : p left ps) (ts : List Lexeme) :
    Answers (Extends p) ps ts (chainFrom level operand left ts) := by
  fun_induction chainFrom level operand left ts generalizing ps with
  | case1 => exact .ok (extends_self hleft)
  | case2 => exact .ok (extends_self hleft)
  | case3 left t ts join hjoin fault hright =>
    exact rewinds_extends.answers_cons ((hoperand ts).of_error hright)
  | case4 left t ts join hjoin right after hright _ ih =>
    obtain ⟨ls, rfl, hr⟩ := (hoperand ts).result _ hright
    refine rewinds_extends.answers_cons (rewinds_extends.answers_append ?_)
    exact ih (hlevel hjoin t.text hleft hr)
  | case5 left t ts join hjoin right after hright =>
    obtain ⟨ls, rfl, hr⟩ := (hoperand ts).result _ hright
    refine rewinds_extends.answers_cons (.ok ?_)
    exact ⟨ls, rfl, hlevel hjoin t.text hleft hr⟩

theorem covers_chain {level : Level} {operand : Reader} (hlevel : level.Keeps p)
    (hoperand : Covers p operand) : Covers p (chain level operand) := by
  intro ts
  unfold chain
  split
  · rename_i heq
    exact (hoperand ts).of_error heq
  · rename_i left rest heq
    obtain ⟨ls, rfl, hleft⟩ := (hoperand ts).result _ heq
    exact rewinds_extends.answers_append (answers_chainFrom hlevel hoperand hleft rest)

theorem covers_sum (hp : FollowsGrammar p) (hinner : Covers p inner) :
    Covers p (sum ending inner) :=
  covers_chain hp.add (covers_chain hp.mul (covers_unary hp hinner))

theorem covers_comparison (hp : FollowsGrammar p) (hinner : Covers p inner) :
    Covers p (comparison ending inner) := by
  intro ts
  refine (covers_sum hp hinner).bind rewinds_extends fun left ps rest hleft => ?_
  dsimp only
  split
  · exact .ok (extends_self hleft)
  · rename_i t rest
    split
    · exact .ok (extends_self hleft)
    · rename_i join hjoin
      refine rewinds_extends.answers_cons ((covers_sum hp hinner).bind rewinds_extends
        fun right qs rest hright => .ok (extends_self ?_))
      exact hp.rel hjoin t.text hleft hright

theorem covers_disjunction (hp : FollowsGrammar p) (hinner : Covers p inner) :
    Covers p (disjunction ending inner) :=
  covers_chain hp.disjunction (covers_chain hp.conjunction (covers_comparison hp hinner))

theorem covers_choice (hp : FollowsGrammar p) (hinner : Covers p inner) :
    Covers p (choice ending inner) := by
  intro ts
  refine (covers_disjunction hp hinner).bind rewinds_extends fun condition ps rest hc => ?_
  dsimp only
  split
  · exact .ok (extends_self hc)
  · rename_i t rest
    split_ifs with ht
    · refine rewinds_extends.answers_cons ((covers_disjunction hp hinner).bind rewinds_extends
        fun yes _ rest hy => ?_)
      rw [piece_of_token ht]
      refine answers_expect_bind rewinds_extends fun text rest => ?_
      exact hinner.bind rewinds_extends fun no _ rest hn =>
        .ok (extends_self (hp.ternary hc hy hn t.text text))
    · exact .ok (extends_self hc)

theorem covers_expr (hp : FollowsGrammar p) (ending : Ending) (n : Nat) :
    Covers p (expr ending n) := by
  induction n with
  | zero => exact fun ts => .error (faultAt_ne_noValue ending ts)
  | succ n ih => exact fun ts => covers_choice hp ih ts

/-! ## Texts -/

/-- What every rule of the grammar keeps holds of a text that was read. -/
theorem FollowsGrammar.of_parse (hp : FollowsGrammar p) {text : String} {t : Tree}
    (h : Tree.parse text = .ok t) :
    ∃ ts finish, lexemes text.toList = (ts, .complete finish) ∧ p t (ts.map Lexeme.piece) := by
  unfold Tree.parse at h
  generalize hlexemes : lexemes text.toList = result at h
  obtain ⟨ts, ending⟩ := result
  dsimp only at h
  split at h
  · rename_i e hparse
    cases h
    unfold parseLexemes at hparse
    split at hparse
    · cases hparse
    · cases hparse
    · rename_i hexpr
      obtain ⟨ls, hls, hpieces⟩ := (covers_expr hp ending _ ts).result _ hexpr
      obtain rfl : ts = ls := by simpa using hls
      split at hparse
      · cases hparse
        exact ⟨ts, _, rfl, hpieces⟩
      · cases hparse
  · cases h

end

/-- A text refused for want of a value holds a literal that has none. -/
theorem exists_hasNoValue_of_parse {text : String}
    (h : Tree.parse text = .error .literalWithoutValue) :
    ∃ t ∈ (lexemes text.toList).1, t.piece.HasNoValue := by
  have hp : FollowsGrammar fun _ _ => True := by constructor <;> intros <;> trivial
  unfold Tree.parse at h
  generalize lexemes text.toList = result at h ⊢
  obtain ⟨ts, ending⟩ := result
  dsimp only at h ⊢
  split at h
  · cases h
  · rename_i fault hparse
    have hnone : fault = .noValue := by
      cases fault with
      | noValue => rfl
      | _ => cases h
    subst hnone
    unfold parseLexemes at hparse
    split at hparse
    · rename_i fault hexpr
      obtain rfl := Except.error.inj hparse
      exact (covers_expr hp ending _ ts).failure hexpr
    · cases hparse
    · split at hparse <;> cases hparse

/-! ## Literals and names -/

section

variable {α : Type} {q : α → List Piece → Prop} {close : Symbol} {xs : List α} {qs : List Piece}

/-- The pieces of an item are among those of all items. -/
theorem ItemPieces.exists_of_mem (h : ItemPieces q close xs qs) {x : α} (hx : x ∈ xs) :
    ∃ ps, q x ps ∧ ps ⊆ qs := by
  induction h with
  | nil => cases hx
  | last hq text =>
    obtain rfl := List.mem_singleton.mp hx
    exact ⟨_, hq, List.subset_append_left _ _⟩
  | cons hq text _ ih =>
    rcases List.mem_cons.mp hx with rfl | hx
    · exact ⟨_, hq, fun y hy => by simp [hy]⟩
    · obtain ⟨ps, hps, hsub⟩ := ih hx
      exact ⟨ps, hps, fun y hy => List.mem_append_right _ (hsub hy)⟩

/-- Every piece is a symbol or belongs to an item. -/
theorem ItemPieces.symbol_or_exists (h : ItemPieces q close xs qs) {y : Piece} (hy : y ∈ qs) :
    (∃ s, y.1 = .symbol s) ∨ ∃ x ps, q x ps ∧ y ∈ ps := by
  induction h with
  | nil text =>
    obtain rfl := List.mem_singleton.mp hy
    exact .inl ⟨close, rfl⟩
  | last hq text =>
    rcases List.mem_append.mp hy with hy | hy
    · exact .inr ⟨_, _, hq, hy⟩
    · obtain rfl := List.mem_singleton.mp hy
      exact .inl ⟨close, rfl⟩
  | cons hq text _ ih =>
    simp only [List.mem_append, List.mem_singleton] at hy
    rcases hy with (hy | rfl) | hy
    · exact .inr ⟨_, _, hq, hy⟩
    · exact .inl ⟨.comma, rfl⟩
    · exact ih hy

end

/-- No piece is a literal without a value. -/
def Valued (ps : List Piece) : Prop := ∀ x ∈ ps, ¬x.HasNoValue

theorem Valued.append {ps qs : List Piece} (h : Valued ps) (h' : Valued qs) : Valued (ps ++ qs) :=
  List.forall_mem_append.mpr ⟨h, h'⟩

theorem valued_symbol (s : Symbol) (text : List Char) : Valued [(.symbol s, text)] := by
  rintro x hx ⟨kind, hkind, -⟩
  obtain rfl := List.mem_singleton.mp hx
  cases hkind

theorem valued_word (name : String) : Valued [word name] := by
  rintro x hx ⟨kind, hkind, -⟩
  obtain rfl := List.mem_singleton.mp hx
  cases hkind

theorem IsHead.valued {name : String} {ps : List Piece} (h : IsHead name ps) : Valued ps := by
  cases h with
  | plain => exact valued_word name
  | dotted text => exact (valued_symbol .dot text).append (valued_word name)

theorem ItemPieces.valued {α : Type} {q : α → List Piece → Prop} {close : Symbol} {xs : List α}
    {qs : List Piece} (h : ItemPieces q close xs qs) (hq : ∀ x ps, q x ps → Valued ps) :
    Valued qs := by
  intro y hy
  rcases h.symbol_or_exists hy with ⟨s, hs⟩ | ⟨x, ps, hx, hy⟩
  · rintro ⟨kind, hkind, -⟩
    rw [hs] at hkind
    cases hkind
  · exact hq x ps hx y hy

theorem followsGrammar_valued : FollowsGrammar fun _ ps => Valued ps where
  ident h := h.valued
  literal h := by
    rintro x hx ⟨kind, hkind, hnone⟩
    obtain rfl := List.mem_singleton.mp hx
    cases hkind
    rw [h] at hnone
    cases hnone
  reserved _ text := valued_symbol _ text
  call hname hargs text :=
    (hname.valued.append (valued_symbol _ text)).append (hargs.valued fun _ _ => id)
  list h text := (valued_symbol _ text).append (h.valued fun _ _ => id)
  map h text := by
    refine (valued_symbol _ text).append (h.valued ?_)
    rintro x ps ⟨ks, vs, colon, hks, hvs, rfl⟩
    exact (Valued.append hks (valued_symbol _ colon)).append hvs
  paren he start finish := ((valued_symbol _ start).append he).append (valued_symbol _ finish)
  select he name text := (Valued.append he (valued_symbol _ text)).append (valued_word name)
  methodCall he hargs dot paren :=
    (((Valued.append he (valued_symbol _ dot)).append (valued_word _)).append
      (valued_symbol _ paren)).append (hargs.valued fun _ _ => id)
  index he hi start finish :=
    ((Valued.append he (valued_symbol _ start)).append hi).append (valued_symbol _ finish)
  fields he hvalues text := by
    refine (Valued.append he (valued_symbol _ text)).append (hvalues.valued ?_)
    rintro x ps ⟨vs, colon, hvs, rfl⟩
    exact ((valued_word x.1).append (valued_symbol _ colon)).append hvs
  unary hop he text := by
    unfold negation? at hop
    split at hop <;> first | exact (valued_symbol _ text).append he | cases hop
  arithmetic hl hr _ s text := (Valued.append hl (valued_symbol s text)).append hr
  relation _ hl hr _ text := (Valued.append hl (valued_symbol _ text)).append hr
  and hl hr text := (Valued.append hl (valued_symbol _ text)).append hr
  or hl hr text := (Valued.append hl (valued_symbol _ text)).append hr
  ternary hc hy hn question colon :=
    (((Valued.append hc (valued_symbol _ question)).append hy).append
      (valued_symbol _ colon)).append hn

/-- Every literal in a text that was read has a value. -/
theorem valued_of_parse {text : String} {t : Tree} (h : Tree.parse text = .ok t) :
    Valued ((lexemes text.toList).1.map Lexeme.piece) := by
  obtain ⟨ts, finish, hts, hvalued⟩ := followsGrammar_valued.of_parse h
  rw [hts]
  exact hvalued

/-- If the names among the pieces are identifiers, those in the expression are. -/
def KeepsNames (t : Tree) (ps : List Piece) : Prop :=
  (∀ x ∈ ps, x.1 = .ident → IsName x.2) → t.Named

theorem IsHead.isName {name : String} {ps : List Piece} (h : IsHead name ps)
    (hps : ∀ x ∈ ps, x.1 = .ident → IsName x.2) : IsName name.toList := by
  cases h with
  | plain => exact hps (word name) (by simp) rfl
  | dotted text => exact hps (word name) (by simp) rfl

theorem followsGrammar_keepsNames : FollowsGrammar KeepsNames where
  ident h hps := .ident (h.isName hps)
  literal _ _ := .constant trivial
  reserved _ _ _ := .constant trivial
  call hname hargs text hps := by
    simp only [List.forall_mem_append] at hps
    refine .call (hname.isName hps.1.1) fun a ha => ?_
    obtain ⟨ps, hps', hsub⟩ := hargs.exists_of_mem ha
    exact hps' fun x hx => hps.2 x (hsub hx)
  list h text hps := by
    refine .list fun e he => ?_
    obtain ⟨ps, hps', hsub⟩ := h.exists_of_mem he
    exact hps' fun x hx => hps x (List.mem_append_right _ (hsub hx))
  map h text hps := by
    simp only [List.forall_mem_append] at hps
    refine .map (fun e he => ?_) fun e he => ?_
    · obtain ⟨ps, ⟨ks, vs, colon, hks, hvs, rfl⟩, hsub⟩ := h.exists_of_mem he
      exact hks fun x hx => hps.2 x (hsub (by simp [hx]))
    · obtain ⟨ps, ⟨ks, vs, colon, hks, hvs, rfl⟩, hsub⟩ := h.exists_of_mem he
      exact hvs fun x hx => hps.2 x (hsub (by simp [hx]))
  paren he start finish hps := he fun x hx => hps x (by simp [hx])
  select he name text hps := by
    simp only [List.forall_mem_append] at hps
    exact .select (he hps.1.1) (hps.2 (word name) (by simp) rfl)
  methodCall he hargs dot paren hps := by
    simp only [List.forall_mem_append] at hps
    refine .methodCall (he hps.1.1.1.1) (hps.1.1.2 (word _) (by simp) rfl) fun a ha => ?_
    obtain ⟨ps, hps', hsub⟩ := hargs.exists_of_mem ha
    exact hps' fun x hx => hps.2 x (hsub hx)
  index he hi start finish hps := by
    simp only [List.forall_mem_append] at hps
    exact .index (he hps.1.1.1) (hi hps.1.2)
  fields he hvalues text hps := by
    simp only [List.forall_mem_append] at hps
    refine .fields (he hps.1.1) (fun v hv => ?_) fun v hv => ?_
    · obtain ⟨ps, ⟨vs, colon, hvs, rfl⟩, hsub⟩ := hvalues.exists_of_mem hv
      exact hps.2 (word v.1) (hsub (by simp)) rfl
    · obtain ⟨ps, ⟨vs, colon, hvs, rfl⟩, hsub⟩ := hvalues.exists_of_mem hv
      exact hvs fun x hx => hps.2 x (hsub (by simp [hx]))
  unary _ he text hps := .unary (he fun x hx => hps x (List.mem_append_right _ hx))
  arithmetic hl hr _ s text hps := by
    simp only [List.forall_mem_append] at hps
    exact .arithmetic (hl hps.1.1) (hr hps.2)
  relation _ hl hr _ text hps := by
    simp only [List.forall_mem_append] at hps
    exact .relation (hl hps.1.1) (hr hps.2)
  and hl hr text hps := by
    simp only [List.forall_mem_append] at hps
    exact .and (hl hps.1.1) (hr hps.2)
  or hl hr text hps := by
    simp only [List.forall_mem_append] at hps
    exact .or (hl hps.1.1) (hr hps.2)
  ternary hc hy hn question colon hps := by
    simp only [List.forall_mem_append] at hps
    exact .ternary (hc hps.1.1.1.1) (hy hps.1.1.2) (hn hps.2)

/-- Every name in an expression that was read is an identifier. -/
theorem named_of_parse {text : String} {e : Tree} (h : Tree.parse text = .ok e) : e.Named := by
  obtain ⟨ts, finish, hts, hnames⟩ := followsGrammar_keepsNames.of_parse h
  have hall : AllNames (lexemes text.toList).1 := allNames_lexemesFrom 0 0 text.toList
  rw [hts] at hall
  refine hnames fun x hx hident => ?_
  obtain ⟨t, ht, rfl⟩ := List.mem_map.mp hx
  exact hall t ht hident

end PolicyDialects.Cel
