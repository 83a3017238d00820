import PolicyDialects.Proofs.Cedar.Seen

/-!
# Prints that the Cedar language accepts

The print of a document that was read from a text of the Cedar language is a text
of the language, with as many policies, unless a part of it reaches into what is
printed behind it or needs an escape that the language does not know. What the
two grammars take for a policy need not agree on the way: behind each clause the
check of the print goes on where the check of the text went on.

Results:

* `Sees.clauses`, `Sees.policies`: clauses and policies, one after the other.
* `Document.compile_text`: validity is kept by printing.
* `compile_commentedText`: a comment at the end of a body breaks it.
-/

namespace PolicyDialects.Cedar

open Text

/-! ## Clauses -/

/-- No reserved word starts with the keyword of a clause. -/
theorem not_mem_reserved_of_front {kind : ClauseKind} {name : String}
    (h : IsFront kind.keyword name) : name ∉ Language.reserved := by
  have hreserved : ∀ name ∈ Language.reserved, ¬ IsFront kind.keyword name := by
    cases kind <;> decide
  exact fun hmem => hreserved name hmem h

section

variable {us : List Token} {cs rest : List Char} {T r : List Language.Token}

/-- Behind a clause stands another one, or a semicolon. -/
theorem Sees.followsClause {clauses : List Clause} {ts : List Token} (h : Sees cs T)
    (hspells : SpellsAll SpellsClause clauses ts) (hrun : Run (ts ++ .mark ";" :: us) cs rest) :
    Language.FollowsClause T := by
  cases hspells with
  | nil =>
    obtain ⟨T', _, rfl, -⟩ := h.mark hrun
    exact .semicolon T'
  | cons hclause _ =>
    cases hclause with
    | mk kind s text =>
      obtain ⟨name, T', rfl, hfront, -⟩ := h.keyword hrun
      exact .clause (not_mem_reserved_of_front hfront) T'

theorem shows_clauseLine {c : Clause} {vs : List Language.Token} (h : Shows c.body.toList vs) :
    Shows (clauseLine c) (.ident c.kind.keyword :: .mark "\x7b" :: (vs ++ [.mark "\x7d"])) := by
  have hclose := (shows_mark (s := "\x7d") (by decide)).blank (c := ' ') rfl
  have hbody := (h.append_cons hclose rfl).blank (c := ' ') rfl
  have hopen := (hbody.symbol (s := "\x7b") (by decide)).blank (c := ' ') rfl
  have hall := ((shows_ident (isIdent_of_mem_keywords (w := c.kind.keyword)
    (by cases c.kind <;> decide))).append_cons hopen rfl).blank (c := '\n') rfl
  simpa [clauseLine, Clause.text] using hall

/-- Clauses in print are accepted where they were in the text, given that what
stands behind the policy is. -/
theorem Sees.clauses {clauses : List Clause} {ts : List Token} {tail : List Char} (h : Sees cs T)
    (hspells : SpellsAll SpellsClause clauses ts) (hrun : Run (ts ++ .mark ";" :: us) cs rest)
    (hbodies : ∀ c ∈ clauses, Language.isSealed c.body.toList = true)
    (htail : ∀ {mid T₁ n}, Sees mid T₁ → Run us mid rest → Language.policies T₁ = some n →
      ∃ T₁', Language.tokensOf? tail = some T₁' ∧ T₁'.length = T₁.length ∧
        Language.policies T₁' = some n)
    (haccepts : ∃ levels n, Language.fromClauses levels T = some n) :
    ∃ T', Language.tokensOf? (clauseLines clauses ++ ';' :: tail) = some T' ∧
      T'.length = T.length ∧ Language.FollowsClause T' ∧
      ∀ levels n, Language.fromClauses levels T = some n →
        Language.fromClauses levels T' = some n := by
  obtain ⟨levels, n, hn⟩ := haccepts
  induction hspells generalizing cs T levels n with
  | nil =>
    obtain ⟨T₁, mid, rfl, hsees, hrun⟩ := h.mark hrun
    rw [Language.fromClauses_semicolon] at hn
    obtain ⟨T₁', htokens, hlength, hpolicies⟩ := htail hsees hrun hn
    refine ⟨.mark ";" :: T₁', ?_, by simp [hlength], .semicolon T₁', fun levels' n' hn' => ?_⟩
    · change Language.tokensOf? (";".toList ++ tail) = _
      rw [Language.tokensOf?_symbol (by decide), htokens]
      rfl
    · rw [Language.fromClauses_semicolon] at hn' ⊢
      rw [hpolicies, ← hn, hn']
  | @cons c clauses ts ts' hclause hmore ih =>
    obtain ⟨hbody, hothers⟩ := List.forall_mem_cons.mp hbodies
    cases hclause with
    | mk kind s text =>
    obtain ⟨name, T₁, rfl, hfront, hname⟩ := h.keyword hrun
    have hkinds : ∀ name ∈ Language.clauseKinds, IsFront kind.keyword name →
        name = kind.keyword := by
      cases kind <;> decide
    have hkeyword := hkinds name (Language.mem_clauseKinds_of_fromClauses hn) hfront
    obtain ⟨mid, hsees, hrun⟩ := hname hkeyword
    have hsealed : Language.isSealed (trim text.toList) = true := by
      simpa [trimmed] using hbody
    obtain ⟨vs, T₂, mid, rfl, hshows, hsees, hrun⟩ := hsees.body hrun hsealed
    have hleft := hsees.followsClause hmore hrun
    have halike := Language.Alike.append (.ident name :: .mark "\x7b" :: vs) T₂
    -- what is left of the check behind the brace accepts the other clauses
    obtain ⟨levels₂, n₂, hn₂, -⟩ :=
      Language.Seam.fromClauses_alike ⟨hleft, hleft⟩ rfl (halike T₂) hn
    obtain ⟨T₂', htokens, hlength, hright, hkeeps⟩ := ih hsees hrun hothers levels₂ n₂ hn₂
    refine ⟨.ident name :: .mark "\x7b" :: (vs ++ .mark "\x7d" :: T₂'), ?_, by simp [hlength],
      .clause (not_mem_reserved_of_front hfront) _, fun levels' n' hn' => ?_⟩
    · have hbodyShows : Shows (trimmed text).toList vs := by simpa [trimmed] using hshows
      have hline := shows_clauseLine (c := ⟨kind, trimmed text⟩) hbodyShows
      have hcons : clauseLines (⟨kind, trimmed text⟩ :: clauses) ++ ';' :: tail =
          clauseLine ⟨kind, trimmed text⟩ ++ (clauseLines clauses ++ ';' :: tail) := by
        simp [clauseLines]
      rw [hcons, hline, htokens, hkeyword]
      · simp
      · cases clauses with
        | nil => exact endsToken_cons rfl _
        | cons => exact endsToken_cons rfl _
    · obtain ⟨levels₃, n₃, hn₃, hagain⟩ :=
        Language.Seam.fromClauses_alike ⟨hleft, hright⟩ hlength.symm (halike T₂') hn'
      exact hagain (hkeeps levels₃ n₃ hn₃)

end

/-! ## Policies and documents -/

/-- Nothing in the print of the policy reaches into what stands behind it, and
its annotations need no escapes that the language does not know. -/
structure Policy.IsSealed (p : Policy) : Prop where
  values : ∀ a ∈ p.notes, ∀ v ∈ a.value, Language.Escapable v.toList
  entities : ∀ e ∈ p.head.entities, Language.hasComment e.toList = false
  bodies : ∀ c ∈ p.clauses, Language.isSealed c.body.toList = true

instance (p : Policy) : Decidable p.IsSealed :=
  decidable_of_iff
    ((∀ a ∈ p.notes, ∀ v ∈ a.value, Language.Escapable v.toList) ∧
      (∀ e ∈ p.head.entities, Language.hasComment e.toList = false) ∧
      ∀ c ∈ p.clauses, Language.isSealed c.body.toList = true)
    ⟨fun ⟨values, entities, bodies⟩ => ⟨values, entities, bodies⟩,
      fun h => ⟨h.values, h.entities, h.bodies⟩⟩

/-- Policies in print are accepted where they were in the text. -/
theorem Sees.policies {policies : List Policy} {ts : List Token} {cs rest : List Char}
    {T : List Language.Token} {n : Nat} (h : Sees cs T)
    (hspells : SpellsAll SpellsPolicy policies ts) (hrun : Run ts cs rest)
    (hrest : skipSpace rest = []) (hsealed : ∀ p ∈ policies, p.IsSealed)
    (hn : Language.policies T = some n) :
    ∃ T', Language.tokensOf? (policyBlocks policies) = some T' ∧ T'.length = T.length ∧
      Language.policies T' = some n := by
  induction hspells generalizing cs T n with
  | nil =>
    cases hrun
    have htokens := (Language.tokensOf?_skipSpace h.lines).1
    rw [hrest, h.tokens] at htokens
    exact ⟨T, htokens, rfl, hn⟩
  | @cons p policies ts ts' hpolicy hmore ih =>
    obtain ⟨hp, hothers⟩ := List.forall_mem_cons.mp hsealed
    cases hpolicy with
    | @mk notes effect hd clauses as hs vs s hnotes hhead hclauses =>
    simp only [List.append_assoc, List.cons_append, List.nil_append] at hrun
    have hne : T ≠ [] := by
      obtain ⟨t, T₁, rfl, -⟩ := h.start_notes hnotes hrun
      exact List.cons_ne_nil _ _
    obtain ⟨template, r, r', m, hfront, htaken, hlt, hm, rfl⟩ :=
      (Language.policies_eq_some_iff hne).mp hn
    obtain ⟨us, ws, mid, rfl, hlength, hsees, hrun, hshows, hagain⟩ :=
      h.policyFront hnotes hhead hrun hp.values hp.entities hfront
    have haccepts : Language.fromClauses (us ++ r).length r = some m := by
      rw [Language.fromClauses, htaken, Option.bind_some, hm]
    obtain ⟨W, htokens, hlengthW, -, hkeeps⟩ := hsees.clauses hclauses hrun hp.bodies
      (fun hsees hrun hpolicies => ih hsees hrun hothers hpolicies) ⟨_, m, haccepts⟩
    refine ⟨ws ++ W, ?_, by simp [hlength, hlengthW], ?_⟩
    · have hcons : policyBlocks (⟨notes, effect, hd, clauses⟩ :: policies) =
          '\n' :: '\n' :: (noteLines notes ++ (effect.keyword.toList ++ '(' ::
            (hd.text.toList ++ [')'])) ++
              (clauseLines clauses ++ ';' :: policyBlocks policies)) := by
        have hpolicy := toList_policy ⟨notes, effect, hd, clauses⟩ (policyBlocks policies)
        rw [policyBlocks, List.flatMap_cons, policyBlock, List.cons_append, List.cons_append,
          ← policyBlocks, hpolicy]
        simp
      rw [hcons, Language.tokensOf?_blank rfl, Language.tokensOf?_blank rfl, hshows, htokens]
      · rfl
      · cases clauses with
        | nil => exact endsToken_cons rfl _
        | cons => exact endsToken_cons rfl _
    · have hsame : (ws ++ W).length = (us ++ r).length := by simp [hlength, hlengthW]
      obtain ⟨r'', htaken', hm'⟩ := Option.bind_eq_some_iff.mp (hkeeps _ _ haccepts)
      have hne' : ws ++ W ≠ [] := by
        intro hnil
        rw [hnil, List.length_nil] at hsame
        exact hne (List.length_eq_zero_iff.mp hsame.symm)
      refine (Language.policies_eq_some_iff hne').mpr
        ⟨template, W, r'', m, hagain W, by rw [hsame, htaken'], ?_, hm', rfl⟩
      have hlt' := Language.length_of_clauses htaken'
      rw [List.length_append]
      omega

theorem Language.compile_eq_ok_iff {text : String} {n : Nat} :
    Language.compile text = .ok n ↔
      ∃ T, Language.tokensOf? text.toList = some T ∧ Language.policies T = some n := by
  rw [Language.compile, ← Option.bind_eq_some_iff, ← Language.tokens?]
  split
  · rename_i k hk
    rw [hk]
    exact ⟨fun h => congrArg some (Except.ok.inj h),
      fun h => congrArg Except.ok (Option.some.inj h)⟩
  · rename_i hnone
    rw [hnone]
    exact ⟨nofun, nofun⟩

/-- In front of the first policy the print has no blank line. -/
theorem tokensOf?_document (policies : List Policy) :
    Language.tokensOf? (Document.text ⟨policies⟩).toList =
      Language.tokensOf? (policyBlocks policies) := by
  cases policies with
  | nil => rfl
  | cons p policies =>
    have hcons : policyBlocks (p :: policies) =
        '\n' :: '\n' :: (p.text.toList ++ policyBlocks policies) := by
      rw [policyBlocks, List.flatMap_cons, policyBlock]
      rfl
    rw [Document.text, toList_intercalate_policies, hcons, Language.tokensOf?_blank rfl,
      Language.tokensOf?_blank rfl]

/-- A text that is a document and Cedar is Cedar again in print, with as many
policies. -/
theorem Document.compile_text {text : String} {d : Document} {n : Nat}
    (hparse : Document.parse text = .ok d) (hcompile : Language.compile text = .ok n)
    (hlines : Language.KeepsLines text.toList) (hsealed : ∀ p ∈ d.policies, p.IsSealed) :
    Language.compile d.text = .ok n := by
  obtain ⟨ts, hspells, rest, hrun, hrest⟩ := Document.parse_iff_laidOut.mp hparse
  obtain ⟨T, htokens, hpolicies⟩ := Language.compile_eq_ok_iff.mp hcompile
  have hsees : Sees text.toList T := ⟨hlines, htokens⟩
  obtain ⟨T', htokens', -, hpolicies'⟩ := hsees.policies hspells hrun hrest hsealed hpolicies
  refine Language.compile_eq_ok_iff.mpr ⟨T', ?_, hpolicies'⟩
  rw [tokensOf?_document, htokens']

/-- Comments in the gaps and inside of a body, a quote in an annotation, and a
template. -/
def spreadText : String :=
  "@a(\"\\\"\")permit(principal==A::\"//\" //\n,action,resource in ?resource)" ++
    "when\x7b//c\n1<2\x7d;forbid(principal,action,resource);//"

/-- The document that the text spells. -/
def spreadDocument : Document where
  policies :=
    [{ notes := [⟨"a", some "\""⟩],
       effect := .permit,
       head := { principal := some ⟨.eq, "A::\"//\""⟩, resource := some ⟨.in, "?resource"⟩ },
       clauses := [⟨.when, "//c\n1<2"⟩] },
     { effect := .forbid, head := {} }]

theorem compile_text_spreadDocument :
    Document.parse spreadText = .ok spreadDocument ∧
      Language.compile spreadDocument.text = .ok 1 := by
  have hparse : Document.parse spreadText = .ok spreadDocument := by decide +kernel
  have hcompile : Language.compile spreadText = .ok 1 := by decide +kernel
  have hlines : Language.KeepsLines spreadText.toList :=
    Language.keepsLines_of_not_mem (by decide +kernel)
  exact ⟨hparse, Document.compile_text hparse hcompile hlines (by decide +kernel)⟩

/-- A comment at the end of a body, whose line the print closes the body on. -/
def commentedText : String :=
  "permit(principal, action, resource) when \x7b true // c\n\x7d;"

/-- The comment takes the brace and the semicolon in print. -/
theorem compile_commentedText :
    Language.compile commentedText = .ok 1 ∧
      (Document.parse commentedText >>= fun d => Language.compile d.text) =
        .error (.cedarRejected "not a sequence of policies") := by
  constructor
  · decide +kernel
  · decide +kernel

/-- A control character that is printed as an escape of six characters, a comment
that is read as a part of an entity, and a carriage return that ends a comment
for the language alone. -/
def unsealedTexts : List String :=
  ["@a(\"\x01\")permit(principal,action,resource);",
    "permit(principal==A::\"x\"//c\n,action,resource);",
    "permit(principal==A //\r::\"x\"\n,action,resource);"]

/-- None of the conditions can be left out. -/
theorem compile_unsealedTexts : ∀ text ∈ unsealedTexts,
    Language.compile text = .ok 1 ∧
      (Document.parse text >>= fun d => Language.compile d.text) =
        .error (.cedarRejected "not a sequence of policies") := by
  decide +kernel

end PolicyDialects.Cedar
