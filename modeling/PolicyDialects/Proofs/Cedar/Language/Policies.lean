import PolicyDialects.Proofs.Cedar.Language.Entities

/-!
# Checks of policies up to a brace

In two texts that are alike up to a brace, a check of policies goes on behind
the brace as a check from there would: what stands in front of the brace only
decides how many levels of brackets there may be, and how many policies there
are already.

Results:

* `policyFront`, `policies_eq_some_iff`: a policy up to its clauses, and the
  clauses.
* `mem_effects_of_word`, `mem_clauseKinds_of_fromClauses`: the keywords that are
  accepted.
* `Seam.clauses_alike`: clauses end in front of the brace, or go on behind it.
* `Seam.fromClauses_alike`: what is left of a check of policies is what is left
  behind the brace.
-/

namespace PolicyDialects.Cedar.Language

section

variable {w w' ts ts' : List Token}

/-! ## The front of a policy -/

theorem notes_ident (known : List String) (name : String) (r : List Token) :
    notes known (.ident name :: r) = some (.ident name :: r) := rfl

/-- An annotation without a value. -/
theorem notes_bare {known : List String} {key : String} {r : List Token}
    (hr : ∀ r', r ≠ .mark "(" :: r') : notes known (.mark "@" :: .ident key :: r) =
      if key ∈ known then none else notes (key :: known) r := by
  rw [notes]
  exact fun value r' heq => hr _ heq

/-- The value of an annotation stands in both texts or in none. -/
theorem Alike.noteValue {value : List Char} {r : List Token}
    (h : Alike w w' ts (.mark "(" :: .string value :: .mark ")" :: r)) :
    ∃ r', ts = .mark "(" :: .string value :: .mark ")" :: r' := by
  obtain ⟨us, rfl, hus⟩ := h.symm.tail (by decide)
  obtain ⟨vs, rfl, hvs⟩ := hus.tail (by simp)
  obtain ⟨xs, rfl, -⟩ := hvs.tail (by decide)
  exact ⟨xs, rfl⟩

theorem Alike.rel_notes (h : Alike w w' ts ts') (known : List String) :
    Option.Rel (Alike w w') (notes known ts) (notes known ts') := by
  fun_induction notes known ts generalizing ts' with
  | case1 known key value rest hbad =>
    obtain ⟨us, rfl, hus⟩ := h.tail (by decide)
    obtain ⟨vs, rfl, hvs⟩ := hus.tail (by simp)
    obtain ⟨xs, rfl, hxs⟩ := hvs.tail (by decide)
    obtain ⟨ys, rfl, hys⟩ := hxs.tail (by simp)
    obtain ⟨zs, rfl, hzs⟩ := hys.tail (by decide)
    rw [notes, if_pos hbad]
    exact .none
  | case2 known key value rest hgood ih =>
    obtain ⟨us, rfl, hus⟩ := h.tail (by decide)
    obtain ⟨vs, rfl, hvs⟩ := hus.tail (by simp)
    obtain ⟨xs, rfl, hxs⟩ := hvs.tail (by decide)
    obtain ⟨ys, rfl, hys⟩ := hxs.tail (by simp)
    obtain ⟨zs, rfl, hzs⟩ := hys.tail (by decide)
    rw [notes, if_neg hgood]
    exact ih hzs
  | case3 known key rest hvalue hbad =>
    obtain ⟨us, rfl, hus⟩ := h.tail (by decide)
    obtain ⟨vs, rfl, hvs⟩ := hus.tail (by simp)
    rw [notes, if_pos hbad]
    · exact .none
    · rintro value r rfl
      obtain ⟨r', rfl⟩ := hvs.noteValue
      exact hvalue _ _ rfl
  | case4 known key rest hvalue hgood ih =>
    obtain ⟨us, rfl, hus⟩ := h.tail (by decide)
    obtain ⟨vs, rfl, hvs⟩ := hus.tail (by simp)
    rw [notes, if_neg hgood]
    · exact ih hvs
    · rintro value r rfl
      obtain ⟨r', rfl⟩ := hvs.noteValue
      exact hvalue _ _ rfl
  | case5 known rest hvalue hbare =>
    obtain ⟨us, rfl, hus⟩ := h.tail (by decide)
    have hkey : ∀ key r, us ≠ .ident key :: r := by
      rintro key r rfl
      obtain ⟨vs, rfl, -⟩ := hus.symm.tail (by simp)
      exact hbare _ _ rfl
    rw [notes]
    · exact .none
    · exact fun key value r heq => hkey _ _ heq
    · exact fun key r heq => hkey _ _ heq
  | case6 known ts hvalue hbare hat =>
    have hstop : notes known ts' = some ts' := by
      rw [notes.eq_def]
      split
      · obtain ⟨us, rfl, -⟩ := h.symm.tail (by decide)
        exact (hat _ rfl).elim
      · obtain ⟨us, rfl, -⟩ := h.symm.tail (by decide)
        exact (hat _ rfl).elim
      · obtain ⟨us, rfl, -⟩ := h.symm.tail (by decide)
        exact (hat _ rfl).elim
      · rfl
    rw [hstop]
    exact .some h

theorem Alike.rel_entityOrSlot (h : Alike w w' ts ts') (slot : String) :
    Option.Rel (SameValue (Alike w w')) (entityOrSlot slot ts) (entityOrSlot slot ts') := by
  have hentity : Option.Rel (SameValue (Alike w w'))
      ((entity ts).map fun r => (false, r)) ((entity ts').map fun r => (false, r)) :=
    rel_map h.rel_entity fun hr => ⟨rfl, hr⟩
  cases h with
  | brace => exact hentity
  | cons t h =>
    cases t with
    | mark m =>
      by_cases hm : m = "?"
      · subst hm
        exact rel_map (h.rel_word slot) fun hr => ⟨rfl, hr⟩
      · simpa [entityOrSlot, hm] using hentity
    | _ => exact hentity

theorem Alike.rel_scope (h : Alike w w' ts ts') (slot : String) :
    Option.Rel (SameValue (Alike w w')) (scope slot ts) (scope slot ts') := by
  refine rel_bind (h.rel_word slot) ?_
  intro r r' hr
  have hfree : Option.Rel (SameValue (Alike w w')) (some (false, r)) (some (false, r')) :=
    .some ⟨rfl, hr⟩
  cases hr with
  | brace => exact hfree
  | cons t hr =>
    cases t with
    | mark m =>
      by_cases hm : m = "=="
      · subst hm
        exact hr.rel_entityOrSlot slot
      · simpa [hm] using hfree
    | ident name =>
      by_cases hin : name = "in"
      · subst hin
        exact hr.rel_entityOrSlot slot
      by_cases his : name = "is"
      · subst his
        refine rel_bind hr.rel_typePath ?_
        intro after after' hafter
        have hword := hafter.rel_word "in"
        generalize word "in" after = o, word "in" after' = o' at hword
        cases hword with
        | none => exact .some ⟨rfl, hafter⟩
        | some hmore => exact hmore.rel_entityOrSlot slot
      · simpa [hin, his] using hfree
    | _ => exact hfree

theorem keeps_actionEntity : Keeps w w' actionEntity := by
  intro ts ts' h
  refine rel_bind h.rel_entity? ?_
  rintro ⟨type, r⟩ ⟨_, r'⟩ ⟨rfl, hr⟩
  dsimp only
  split
  · exact .some (.inl hr)
  · exact .none

theorem Seam.rel_actionScope (hw : Seam w w') (h : Alike w w' ts ts') :
    Option.Rel (AlikeOrBehind w w') (actionScope ts) (actionScope ts') := by
  refine rel_bind (h.rel_word "action") ?_
  intro r r' hr
  have hfree : Option.Rel (AlikeOrBehind w w') (some r) (some r') := .some hr.orBehind
  cases hr with
  | brace => exact hfree
  | cons t hr =>
    cases t with
    | mark m =>
      by_cases hm : m = "=="
      · subst hm
        exact keeps_actionEntity hr
      · simpa [hm] using hfree
    | ident name =>
      by_cases hin : name = "in"
      · subst hin
        have hentity := keeps_actionEntity hr
        cases hr with
        | brace => exact hentity
        | cons t hr =>
          cases t with
          | mark m =>
            by_cases hm : m = "["
            · subst hm
              exact rel_map (hw.rel_items (by decide) keeps_actionEntity hr) And.right
            · simpa [hm] using hentity
          | _ => exact hentity
      · simpa [hin] using hfree
    | _ => exact hfree

/-- The slots of a policy behind the parenthesis that opens them. -/
def headFront (ts : List Token) : Option (Template × List Token) := do
  let (principal, ts) ← scope "principal" ts
  let ts ← actionScope (← mark "," ts)
  let (resource, ts) ← scope "resource" (← mark "," ts)
  let ts ← mark ")" ((mark "," ts).getD ts)
  return (principal || resource, ts)

/-- A policy up to its clauses; the answer says whether it is a template. -/
def policyFront (ts : List Token) : Option (Template × List Token) := do
  let ts ← notes [] ts
  let ts ← (word "permit" ts).orElse fun _ => word "forbid" ts
  headFront (← mark "(" ts)

/-- The keywords of effects. -/
def effects : List String := ["permit", "forbid"]

theorem mem_effects_of_word {ts r : List Token}
    (h : ((word "permit" ts).orElse fun _ => word "forbid" ts) = some r) :
    ∃ name ∈ effects, ts = .ident name :: r := by
  cases hpermit : word "permit" ts with
  | some r' =>
    rw [hpermit] at h
    obtain rfl := Option.some.inj h
    exact ⟨"permit", by decide, word_eq_some hpermit⟩
  | none =>
    rw [hpermit] at h
    exact ⟨"forbid", by decide, word_eq_some h⟩

theorem word_of_mem_effects {name : String} (h : name ∈ effects) (r : List Token) :
    ((word "permit" (.ident name :: r)).orElse fun _ => word "forbid" (.ident name :: r)) =
      some r := by
  simp only [effects, List.mem_cons, List.not_mem_nil, or_false] at h
  rcases h with rfl | rfl <;> rfl

theorem policy_eq (ts : List Token) :
    policy ts = (policyFront ts).bind fun a => (clauses (expr ts.length) a.2).map (a.1, ·) := by
  simp [policy, policyFront, headFront, Option.bind_assoc, Option.map_eq_bind]

theorem Seam.rel_policyFront (hw : Seam w w') (h : Alike w w' ts ts') :
    Option.Rel (SameValue (Alike w w')) (policyFront ts) (policyFront ts') := by
  refine rel_bind (h.rel_notes []) fun {ts ts'} h => ?_
  have heffect : Option.Rel (Alike w w') ((word "permit" ts).orElse fun _ => word "forbid" ts)
      ((word "permit" ts').orElse fun _ => word "forbid" ts') := by
    have hpermit := h.rel_word "permit"
    generalize word "permit" ts = o, word "permit" ts' = o' at hpermit
    cases hpermit with
    | some hr => exact .some hr
    | none => exact h.rel_word "forbid"
  refine rel_bind heffect fun h => ?_
  refine rel_bind (h.rel_mark (by decide)) fun h => ?_
  refine rel_bind (h.rel_scope "principal") ?_
  rintro ⟨principal, ts⟩ ⟨_, ts'⟩ ⟨rfl, h⟩
  change Alike w w' ts ts' at h
  refine rel_bind (h.rel_mark (by decide)) fun h => ?_
  refine rel_bind (hw.rel_actionScope h) fun h => ?_
  refine rel_bind (hw.rel_mark h (by decide) (by decide)) fun h => ?_
  refine rel_bind (h.rel_scope "resource") ?_
  rintro ⟨resource, ts⟩ ⟨_, ts'⟩ ⟨rfl, h⟩
  change Alike w w' ts ts' at h
  have hcomma : Alike w w' ((mark "," ts).getD ts) ((mark "," ts').getD ts') := by
    have hmark := h.rel_mark (s := ",") (by decide)
    generalize mark "," ts = o, mark "," ts' = o' at hmark
    cases hmark with
    | some hr => exact hr
    | none => exact h
  refine rel_bind (hcomma.rel_mark (by decide)) fun h => ?_
  exact .some ⟨rfl, h⟩

/-! ## Clauses and policies -/

/-- Clauses either end in front of the brace, or go on behind it. -/
theorem Seam.clauses_alike (hw : Seam w w') {body : Check} (hbody : Keeps w w' body)
    (h : Alike w w' ts ts') :
    Option.Rel (Alike w w') (clauses body ts) (clauses body ts') ∨
      clauses body ts = clauses body w ∧ clauses body ts' = clauses body w' := by
  induction hn : ts.length using Nat.strongRecOn generalizing ts ts' with
  | ind n ih =>
  subst hn
  rw [clauses.eq_def body ts]
  split
  · obtain ⟨us, rfl, hus⟩ := h.tail (by decide)
    rw [clauses]
    exact .inl (.some hus)
  · rename_i kind rest
    obtain ⟨us, rfl, hus⟩ := h.tail (by simp)
    obtain ⟨vs, rfl, hvs⟩ := hus.tail (by decide)
    rw [clauses]
    split
    · have hafter := rel_bind (hbody hvs) fun hr => hw.rel_closing hr (s := "\x7d") (by decide)
      generalize (body rest).bind (mark "\x7d") = o, (body vs).bind (mark "\x7d") = o' at hafter
      cases hafter with
      | none => exact .inl .none
      | @some after after' hafter =>
        dsimp only
        have hiff := hafter.length_lt_iff hvs.orBehind
        by_cases hlt : after.length < rest.length
        · rw [if_pos hlt, if_pos (hiff.mp hlt)]
          rcases hafter with hafter | ⟨rfl, rfl⟩
          · exact ih _ (by simp only [List.length_cons]; omega) hafter rfl
          · exact .inr ⟨rfl, rfl⟩
        · rw [if_neg hlt, if_neg (hlt ∘ hiff.mpr)]
          exact .inl .none
    · exact .inl .none
  · rename_i hsemicolon hclause
    have hstop : clauses body ts' = none := by
      rw [clauses.eq_def]
      split
      · obtain ⟨us, rfl, -⟩ := h.symm.tail (by decide)
        exact (hsemicolon _ rfl).elim
      · obtain ⟨us, rfl, hus⟩ := h.symm.tail (by simp)
        obtain ⟨vs, rfl, -⟩ := hus.tail (by decide)
        exact (hclause _ _ rfl).elim
      · rfl
    rw [hstop]
    exact .inl .none

theorem length_of_clauses {body : Check} {r : List Token} (h : clauses body ts = some r) :
    r.length < ts.length := by
  fun_induction clauses body ts with
  | case1 rest =>
    obtain rfl := Option.some.inj h
    exact Nat.lt_succ_self _
  | case2 kind rest _ hnone => cases h
  | case3 kind rest _ after _ hlt ih =>
    have := ih h
    simp only [List.length_cons]
    omega
  | case4 => cases h
  | case5 => cases h
  | case6 => cases h

/-- What is left of a check of policies when the clauses of one of them start. -/
def fromClauses (levels : Nat) (ts : List Token) : Option Nat :=
  (clauses (expr levels) ts).bind policies

theorem fromClauses_semicolon (levels : Nat) (r : List Token) :
    fromClauses levels (.mark ";" :: r) = policies r := by
  rw [fromClauses, clauses, Option.bind_some]

/-- The keywords of clauses. -/
def clauseKinds : List String := ["when", "unless"]

theorem mem_clauseKinds_of_fromClauses {levels n : Nat} {name : String} {r : List Token}
    (h : fromClauses levels (.ident name :: r) = some n) : name ∈ clauseKinds := by
  obtain ⟨s, hclauses, -⟩ := Option.bind_eq_some_iff.mp h
  rw [clauses.eq_def] at hclauses
  split at hclauses
  · rename_i hsemicolon
    cases hsemicolon
  · rename_i hclause
    obtain ⟨hname, -⟩ := List.cons.inj hclause
    obtain rfl := Token.ident.inj hname
    split at hclauses
    · simpa [clauseKinds] using ‹_›
    · cases hclauses
  · cases hclauses

/-- How many policies there are when one more is read. -/
def counted (template : Template) (n : Nat) : Nat := if template then n else n + 1

theorem policies_eq_some_iff (hne : ts ≠ []) {n : Nat} :
    policies ts = some n ↔ ∃ template r r' m, policyFront ts = some (template, r) ∧
      clauses (expr ts.length) r = some r' ∧ r'.length < ts.length ∧ policies r' = some m ∧
      n = counted template m := by
  rw [policies, if_neg (by simpa using hne), policy_eq]
  constructor
  · intro h
    split at h
    · cases h
    · rename_i template r' hpolicy
      obtain ⟨⟨_, r⟩, hfront, hclauses⟩ := Option.bind_eq_some_iff.mp hpolicy
      obtain ⟨r'', hr'', heq⟩ := Option.map_eq_some_iff.mp hclauses
      obtain ⟨rfl, rfl⟩ := Prod.mk.inj heq
      split at h
      · obtain ⟨m, hm, rfl⟩ := Option.map_eq_some_iff.mp h
        exact ⟨_, r, r'', m, hfront, hr'', ‹_›, hm, rfl⟩
      · cases h
  · rintro ⟨template, r, r', m, hfront, hclauses, hlt, hm, rfl⟩
    simp only [hfront, hclauses, Option.bind_some, Option.map_some, if_pos hlt, hm]
    rfl

theorem Alike.ne_nil (h : Alike w w' ts ts') : ts ≠ [] := by
  cases h <;> exact List.cons_ne_nil _ _

theorem Alike.length_lt (h : Alike w w' ts ts') : w.length < ts.length := by
  induction h with
  | brace => exact Nat.lt_succ_self _
  | cons t _ ih => exact Nat.lt_succ_of_lt ih

theorem Seam.policies_alike (hw : Seam w w') (hlength : w.length = w'.length)
    (h : Alike w w' ts ts') {n : Nat} (hn : policies ts = some n) :
    ∃ levels m, fromClauses levels w = some m ∧
      (fromClauses levels w' = some m → policies ts' = some n) := by
  induction hlen : ts.length using Nat.strongRecOn generalizing ts ts' n with
  | ind len ih =>
  subst hlen
  obtain ⟨template, r, s, m, hfront, hclauses, hlt, hm, rfl⟩ :=
    (policies_eq_some_iff h.ne_nil).mp hn
  have hlevels : ts'.length = ts.length := by
    have := h.orBehind.length
    omega
  have hrel := hw.rel_policyFront h
  rw [hfront] at hrel
  obtain ⟨⟨_, r'⟩, hfront', rfl, hr⟩ := exists_of_rel_some hrel
  rcases hw.clauses_alike (hw.keeps_expr ts.length) hr with hends | ⟨hleft, hright⟩
  · -- the policy ends in front of the brace
    dsimp only at hends hclauses
    rw [hclauses] at hends
    obtain ⟨s', hclauses', hs⟩ := exists_of_rel_some hends
    obtain ⟨levels, k, hk, hrest⟩ := ih _ hlt hs hm rfl
    refine ⟨levels, k, hk, fun hk' => (policies_eq_some_iff h.symm.ne_nil).mpr ?_⟩
    exact ⟨_, r', s', m, hfront', by rw [hlevels, hclauses'],
      (hs.orBehind.length_lt_iff h.orBehind).mp hlt, hrest hk', rfl⟩
  · -- its clauses go on behind the brace
    dsimp only at hleft hright hclauses
    rw [hleft] at hclauses
    refine ⟨ts.length, m, by rw [fromClauses, hclauses, Option.bind_some, hm], fun hk' => ?_⟩
    obtain ⟨s', hs', hm'⟩ := Option.bind_eq_some_iff.mp hk'
    refine (policies_eq_some_iff h.symm.ne_nil).mpr ⟨_, r', s', m, hfront', ?_, ?_, hm', rfl⟩
    · rw [hlevels, hright, hs']
    · exact Nat.lt_trans (length_of_clauses hs') h.symm.length_lt

/-- The rest of a check is one from behind the brace. -/
theorem Seam.fromClauses_alike (hw : Seam w w') (hlength : w.length = w'.length)
    (h : Alike w w' ts ts') {levels n : Nat} (hn : fromClauses levels ts = some n) :
    ∃ levels' m, fromClauses levels' w = some m ∧
      (fromClauses levels' w' = some m → fromClauses levels ts' = some n) := by
  rcases hw.clauses_alike (hw.keeps_expr levels) h with hends | ⟨hleft, hright⟩
  · obtain ⟨s, hclauses, hs⟩ := Option.bind_eq_some_iff.mp hn
    rw [hclauses] at hends
    obtain ⟨s', hclauses', halike⟩ := exists_of_rel_some hends
    obtain ⟨levels', m, hm, hrest⟩ := hw.policies_alike hlength halike hs
    refine ⟨levels', m, hm, fun hm' => ?_⟩
    rw [fromClauses, hclauses', Option.bind_some, hrest hm']
  · rw [fromClauses, hleft] at hn
    refine ⟨levels, n, hn, fun hn' => ?_⟩
    rwa [fromClauses, hright]

end

end PolicyDialects.Cedar.Language
