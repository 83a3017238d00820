import Mathlib.Data.Option.Basic
import PolicyDialects.Cedar.Language.Check

/-!
# What checks see of a text

Behind the brace that closes a clause stands the keyword of another clause or a
semicolon. No check of an expression looks further than there, so two texts that
differ only behind such a brace are checked alike up to it.

Results:

* `Alike`: texts that are alike up to a brace.
* `Keeps`, `Continues`: checks that answer alike on such texts.
* `Seam.keeps_expr`: expressions are such checks.
-/

namespace PolicyDialects.Cedar.Language

/-! ## Texts that are alike -/

/-- What may stand behind the brace of a clause: a semicolon, or a word that is
not reserved. -/
inductive FollowsClause : List Token → Prop where
  | semicolon (rest : List Token) : FollowsClause (.mark ";" :: rest)
  | clause {s : String} (hs : s ∉ reserved) (rest : List Token) :
      FollowsClause (.ident s :: rest)

/-- The texts are the same up to a closing brace, with the given ones behind
it. -/
inductive Alike (w w' : List Token) : List Token → List Token → Prop where
  | brace : Alike w w' (.mark "\x7d" :: w) (.mark "\x7d" :: w')
  | cons (t : Token) {ts ts' : List Token} (h : Alike w w' ts ts') :
      Alike w w' (t :: ts) (t :: ts')

/-- The texts are alike, or what stands behind the brace. -/
def AlikeOrBehind (w w' ts ts' : List Token) : Prop := Alike w w' ts ts' ∨ ts = w ∧ ts' = w'

/-- Answers with the same value, and related texts behind it. -/
def SameValue {α : Type} (R : List Token → List Token → Prop) (a a' : α × List Token) : Prop :=
  a.1 = a'.1 ∧ R a.2 a'.2

section

variable {α β : Type} {R : α → α → Prop} {S : β → β → Prop} {o o' : Option α}

theorem rel_bind (h : Option.Rel R o o') {f g : α → Option β}
    (hfg : ∀ {a a'}, R a a' → Option.Rel S (f a) (g a')) :
    Option.Rel S (o.bind f) (o'.bind g) := by
  cases h with
  | some h => exact hfg h
  | none => exact .none

theorem rel_map (h : Option.Rel R o o') {f g : α → β} (hfg : ∀ {a a'}, R a a' → S (f a) (g a')) :
    Option.Rel S (o.map f) (o'.map g) := by
  cases h with
  | some h => exact .some (hfg h)
  | none => exact .none

theorem rel_mono {R' : α → α → Prop} (h : Option.Rel R o o') (hR : ∀ {a a'}, R a a' → R' a a') :
    Option.Rel R' o o' := by
  cases h with
  | some h => exact .some (hR h)
  | none => exact .none

theorem exists_of_rel_some {a : α} (h : Option.Rel R (some a) o') :
    ∃ a', o' = some a' ∧ R a a' := by
  cases h with
  | some h => exact ⟨_, rfl, h⟩

end

section

variable {w w' ts ts' : List Token}

theorem Alike.orBehind (h : Alike w w' ts ts') : AlikeOrBehind w w' ts ts' := .inl h

theorem Alike.symm (h : Alike w w' ts ts') : Alike w' w ts' ts := by
  induction h with
  | brace => exact .brace
  | cons t _ ih => exact .cons t ih

/-- Texts with the same front up to the brace. -/
theorem Alike.append (front w w' : List Token) :
    Alike w w' (front ++ .mark "\x7d" :: w) (front ++ .mark "\x7d" :: w') := by
  induction front with
  | nil => exact .brace
  | cons t front ih => exact .cons t ih

/-- Tokens other than the brace stand in both texts. -/
theorem Alike.tail {t : Token} (h : Alike w w' (t :: ts) ts') (ht : t ≠ .mark "\x7d") :
    ∃ us, ts' = t :: us ∧ Alike w w' ts us := by
  generalize hus : t :: ts = us at h
  cases h with
  | brace => exact absurd (List.cons.inj hus).1 ht
  | cons u h =>
    obtain ⟨rfl, rfl⟩ := List.cons.inj hus
    exact ⟨_, rfl, h⟩

theorem AlikeOrBehind.length (h : AlikeOrBehind w w' ts ts') :
    ts.length + w'.length = ts'.length + w.length := by
  rcases h with h | ⟨rfl, rfl⟩
  · induction h with
    | brace => simp only [List.length_cons]; omega
    | cons t _ ih => simp only [List.length_cons]; omega
  · omega

/-- The guards of the checks, which ask for a shorter text, are met alike. -/
theorem AlikeOrBehind.length_lt_iff {r r' : List Token} (hr : AlikeOrBehind w w' r r')
    (h : AlikeOrBehind w w' ts ts') : r.length < ts.length ↔ r'.length < ts'.length := by
  have := hr.length
  have := h.length
  omega

/-! ## Marks and words -/

theorem Alike.rel_mark (h : Alike w w' ts ts') {s : String} (hs : s ≠ "\x7d") :
    Option.Rel (Alike w w') (mark s ts) (mark s ts') := by
  cases h with
  | brace =>
    rw [mark, mark, if_neg hs.symm, if_neg hs.symm]
    exact .none
  | cons t h =>
    cases t with
    | mark m =>
      rw [mark, mark]
      split
      · exact .some h
      · exact .none
    | _ => exact .none

theorem Alike.rel_word (h : Alike w w' ts ts') (k : String) :
    Option.Rel (Alike w w') (word k ts) (word k ts') := by
  cases h with
  | brace => exact .none
  | cons t h =>
    cases t with
    | ident name =>
      rw [word, word]
      split
      · exact .some h
      · exact .none
    | _ => exact .none

theorem FollowsClause.mark_eq_none (h : FollowsClause w) {s : String} (hs : s ≠ ";") :
    mark s w = none := by
  cases h with
  | semicolon rest => exact if_neg hs.symm
  | clause _ rest => rfl

theorem FollowsClause.word_eq_none (h : FollowsClause w) {k : String} (hk : k ∈ reserved) :
    word k w = none := by
  cases h with
  | semicolon rest => rfl
  | @clause s hs rest =>
    refine if_neg ?_
    rintro rfl
    exact hs hk

/-- A mark that closes a list of expressions may be the brace. -/
theorem Alike.rel_closing (h : Alike w w' ts ts') (s : String) :
    Option.Rel (AlikeOrBehind w w') (mark s ts) (mark s ts') := by
  cases h with
  | brace =>
    rw [mark, mark]
    split
    · exact .some (.inr ⟨rfl, rfl⟩)
    · exact .none
  | cons t h =>
    cases t with
    | mark m =>
      rw [mark, mark]
      split
      · exact .some (.inl h)
      · exact .none
    | _ => exact .none

end

/-- Behind the brace of a clause nothing goes on. -/
structure Seam (w w' : List Token) : Prop where
  left : FollowsClause w
  right : FollowsClause w'

section

variable {w w' ts ts' : List Token}

theorem Seam.rel_mark (hw : Seam w w') (h : AlikeOrBehind w w' ts ts') {s : String}
    (hs : s ≠ "\x7d") (hsemicolon : s ≠ ";") :
    Option.Rel (Alike w w') (mark s ts) (mark s ts') := by
  rcases h with h | ⟨rfl, rfl⟩
  · exact h.rel_mark hs
  · rw [hw.left.mark_eq_none hsemicolon, hw.right.mark_eq_none hsemicolon]
    exact .none

theorem Seam.rel_closing (hw : Seam w w') (h : AlikeOrBehind w w' ts ts') {s : String}
    (hsemicolon : s ≠ ";") : Option.Rel (AlikeOrBehind w w') (mark s ts) (mark s ts') := by
  rcases h with h | ⟨rfl, rfl⟩
  · exact h.rel_closing s
  · rw [hw.left.mark_eq_none hsemicolon, hw.right.mark_eq_none hsemicolon]
    exact .none

theorem Seam.rel_word (hw : Seam w w') (h : AlikeOrBehind w w' ts ts') {k : String}
    (hk : k ∈ reserved) : Option.Rel (Alike w w') (word k ts) (word k ts') := by
  rcases h with h | ⟨rfl, rfl⟩
  · exact h.rel_word k
  · rw [hw.left.word_eq_none hk, hw.right.word_eq_none hk]
    exact .none

/-! ## Names -/

theorem Alike.rel_name (h : Alike w w' ts ts') :
    Option.Rel (SameValue (Alike w w')) (name? ts) (name? ts') := by
  cases h with
  | brace => exact .none
  | cons t h =>
    cases t with
    | ident name =>
      rw [name?, name?]
      split
      · exact .none
      · exact .some ⟨rfl, h⟩
    | _ => exact .none

/-- Paths do not reach the brace. -/
structure SamePath (w w' : List Token) (p p' : List String × Option (List Char) × List Token) :
    Prop where
  segments : p.1 = p'.1
  id : p.2.1 = p'.2.1
  rest : Alike w w' p.2.2 p'.2.2

theorem Alike.samePath_pathTail (h : Alike w w' ts ts') :
    SamePath w w' (pathTail ts) (pathTail ts') := by
  fun_induction pathTail ts generalizing ts' with
  | case1 id rest =>
    obtain ⟨us, rfl, hus⟩ := h.tail (by decide)
    obtain ⟨vs, rfl, hvs⟩ := hus.tail (by simp)
    exact ⟨rfl, rfl, hvs⟩
  | case2 name rest hname =>
    obtain ⟨us, rfl, hus⟩ := h.tail (by decide)
    obtain ⟨vs, rfl, -⟩ := hus.tail (by simp)
    rw [pathTail, if_pos hname]
    exact ⟨rfl, rfl, h⟩
  | case3 name rest hname segments id after heq ih =>
    obtain ⟨us, rfl, hus⟩ := h.tail (by decide)
    obtain ⟨vs, rfl, hvs⟩ := hus.tail (by simp)
    have hsame := ih hvs
    rw [heq] at hsame
    rw [pathTail, if_neg hname]
    exact ⟨congrArg (name :: ·) hsame.segments, hsame.id, hsame.rest⟩
  | case4 ts hid hname =>
    have hstop : pathTail ts' = ([], none, ts') := by
      rw [pathTail.eq_def]
      split
      · obtain ⟨us, rfl, hus⟩ := h.symm.tail (by decide)
        obtain ⟨vs, rfl, -⟩ := hus.tail (by simp)
        exact (hid _ _ rfl).elim
      · obtain ⟨us, rfl, hus⟩ := h.symm.tail (by decide)
        obtain ⟨vs, rfl, -⟩ := hus.tail (by simp)
        exact (hname _ _ rfl).elim
      · rfl
    rw [hstop]
    exact ⟨rfl, rfl, h⟩

theorem Alike.rel_path (h : Alike w w' ts ts') :
    Option.Rel (SamePath w w') (path? ts) (path? ts') := by
  refine rel_bind h.rel_name ?_
  rintro ⟨first, r⟩ ⟨_, r'⟩ ⟨rfl, hr⟩
  have hsame := Alike.samePath_pathTail hr
  exact .some ⟨congrArg (first :: ·) hsame.segments, hsame.id, hsame.rest⟩

theorem Alike.rel_typePath (h : Alike w w' ts ts') :
    Option.Rel (Alike w w') (typePath ts) (typePath ts') := by
  refine rel_bind h.rel_path ?_
  rintro ⟨segments, id, r⟩ ⟨_, _, r'⟩ ⟨rfl, rfl, hr⟩
  cases id with
  | none => exact .some hr
  | some id => exact .none

theorem Alike.rel_entity? (h : Alike w w' ts ts') :
    Option.Rel (SameValue (Alike w w')) (entity? ts) (entity? ts') := by
  refine rel_bind h.rel_path ?_
  rintro ⟨segments, id, r⟩ ⟨_, _, r'⟩ ⟨rfl, rfl, hr⟩
  cases id with
  | none => exact .none
  | some id =>
    dsimp only
    split
    · exact .some ⟨rfl, hr⟩
    · exact .none

theorem Alike.rel_entity (h : Alike w w' ts ts') :
    Option.Rel (Alike w w') (entity ts) (entity ts') :=
  rel_map h.rel_entity? And.right

/-! ## Operands -/

/-- The check answers alike on texts that are alike. -/
def Keeps (w w' : List Token) (f : Check) : Prop :=
  ∀ {ts ts'}, Alike w w' ts ts' → Option.Rel (AlikeOrBehind w w') (f ts) (f ts')

/-- So does a check that may also start behind the brace. -/
def Continues (w w' : List Token) (f : Check) : Prop :=
  ∀ {ts ts'}, AlikeOrBehind w w' ts ts' → Option.Rel (AlikeOrBehind w w') (f ts) (f ts')

theorem Keeps.bind {f g : Check} (hf : Keeps w w' f) (hg : Continues w w' g) :
    Keeps w w' fun ts => (f ts).bind g :=
  fun h => rel_bind (hf h) hg

theorem Seam.rel_items (hw : Seam w w') {close : String} (hclose : close ≠ ";") {item : Check}
    (hitem : Keeps w w' item) (h : Alike w w' ts ts') :
    Option.Rel (SameValue (AlikeOrBehind w w')) (items close item ts) (items close item ts') := by
  induction hn : ts.length using Nat.strongRecOn generalizing ts ts' with
  | ind n ih =>
  subst hn
  rw [items.eq_def, items.eq_def close item ts']
  have hfirst := h.rel_closing close
  generalize mark close ts = o, mark close ts' = o' at hfirst
  cases hfirst with
  | some hr => exact .some ⟨rfl, hr⟩
  | none =>
    dsimp only
    have hafter := hitem h
    generalize item ts = o, item ts' = o' at hafter
    cases hafter with
    | none => exact .none
    | @some after after' hafter =>
      dsimp only
      have hcomma := hw.rel_mark hafter (s := ",") (by decide) (by decide)
      generalize mark "," after = o, mark "," after' = o' at hcomma
      cases hcomma with
      | none => exact rel_map (hw.rel_closing hafter hclose) fun hr => ⟨rfl, hr⟩
      | @some rest rest' hrest =>
        dsimp only
        have hiff := hrest.orBehind.length_lt_iff h.orBehind
        by_cases hlt : rest.length < ts.length
        · rw [if_pos hlt, if_pos (hiff.mp hlt)]
          refine rel_map (ih _ hlt hrest rfl) ?_
          rintro ⟨count, r⟩ ⟨_, r'⟩ ⟨rfl, hr⟩
          exact ⟨rfl, hr⟩
        · rw [if_neg hlt, if_neg (hlt ∘ hiff.mpr)]
          exact .none

theorem keeps_recordEntry {inner : Check} (hinner : Keeps w w' inner) :
    Keeps w w' (recordEntry inner) := by
  intro ts ts' h
  have hvalue : ∀ {ts ts'}, Alike w w' ts ts' → Option.Rel (AlikeOrBehind w w')
      ((mark ":" ts).bind inner) ((mark ":" ts').bind inner) :=
    fun h => rel_bind (h.rel_mark (by decide)) hinner
  cases h with
  | brace => exact .none
  | cons t h =>
    cases t with
    | ident name => exact hvalue h
    | string body =>
      rw [recordEntry, recordEntry]
      split
      · exact hvalue h
      · exact .none
    | _ => exact .none

theorem Seam.keeps_named (hw : Seam w w') {inner : Check} (hinner : Keeps w w' inner) :
    Keeps w w' (named inner) := by
  intro ts ts' h
  refine rel_bind h.rel_path ?_
  rintro ⟨segments, id, r⟩ ⟨_, _, r'⟩ ⟨rfl, rfl, hr⟩
  change Alike w w' r r' at hr
  cases id with
  | some id =>
    dsimp only
    split
    · exact .some hr.orBehind
    · exact .none
  | none =>
    rcases segments with _ | ⟨name, _ | ⟨_, _⟩⟩
    · exact .none
    · dsimp only
      split
      · exact .some hr.orBehind
      · split
        · refine rel_bind (hr.rel_mark (by decide)) fun hargs => ?_
          exact rel_bind (hw.rel_items (by decide) hinner hargs) fun hsame => .some hsame.2
        · exact .none
    · exact .none

theorem Seam.keeps_primary (hw : Seam w w') {inner : Check} (hinner : Keeps w w' inner) :
    Keeps w w' (primary inner) := by
  intro ts ts' h
  have hnamed := hw.keeps_named hinner h
  cases h with
  | brace => exact hnamed
  | cons t h =>
    cases t with
    | number n =>
      rw [primary, primary]
      split
      · exact .some h.orBehind
      · exact .none
    | string body =>
      rw [primary, primary]
      split
      · exact .some h.orBehind
      · exact .none
    | ident name =>
      by_cases htrue : name = "true"
      · subst htrue
        exact .some h.orBehind
      by_cases hfalse : name = "false"
      · subst hfalse
        exact .some h.orBehind
      simpa [primary, htrue, hfalse] using hnamed
    | mark m =>
      by_cases hparen : m = "("
      · subst hparen
        exact rel_bind (hinner h) fun hr => hw.rel_closing hr (by decide)
      by_cases hbracket : m = "["
      · subst hbracket
        exact rel_map (hw.rel_items (by decide) hinner h) And.right
      by_cases hbrace : m = "\x7b"
      · subst hbrace
        exact rel_map (hw.rel_items (by decide) (keeps_recordEntry hinner) h) And.right
      simpa [primary, hparen, hbracket, hbrace] using hnamed

/-! ## What follows an operand -/

theorem Alike.opensAccess_eq (h : Alike w w' ts ts') : opensAccess ts = opensAccess ts' := by
  cases h with
  | brace => rfl
  | cons t h => cases t <;> rfl

theorem FollowsClause.opensAccess_eq (h : FollowsClause w) : opensAccess w = false := by
  cases h <;> rfl

theorem Seam.keeps_access (hw : Seam w w') {inner : Check} (hinner : Keeps w w' inner) :
    Keeps w w' (access inner) := by
  intro ts ts' h
  rw [access.eq_def]
  split
  · obtain ⟨us, rfl, hus⟩ := h.tail (by decide)
    rw [access]
    refine rel_bind hus.rel_name ?_
    rintro ⟨name, r⟩ ⟨_, r'⟩ ⟨rfl, hr⟩
    change Alike w w' r r' at hr
    dsimp only
    have hargs := hr.rel_mark (s := "(") (by decide)
    generalize mark "(" r = o, mark "(" r' = o' at hargs
    cases hargs with
    | none => exact .some hr.orBehind
    | some hargs =>
      refine rel_bind (hw.rel_items (by decide) hinner hargs) ?_
      rintro ⟨count, r⟩ ⟨_, r'⟩ ⟨rfl, hr⟩
      dsimp only
      split
      · exact .some hr
      · exact .none
  · obtain ⟨us, rfl, hus⟩ := h.tail (by decide)
    obtain ⟨vs, rfl, hvs⟩ := hus.tail (by simp)
    obtain ⟨xs, rfl, hxs⟩ := hvs.tail (by decide)
    rw [access]
    split
    · exact .some hxs.orBehind
    · exact .none
  · rename_i hdot hindex
    rw [access.eq_def]
    split
    · obtain ⟨us, rfl, hus⟩ := h.symm.tail (by decide)
      exact (hdot _ rfl).elim
    · obtain ⟨us, rfl, hus⟩ := h.symm.tail (by decide)
      obtain ⟨vs, rfl, hvs⟩ := hus.tail (by simp)
      obtain ⟨xs, rfl, hxs⟩ := hvs.tail (by decide)
      exact (hindex _ _ rfl).elim
    · exact .none

theorem Seam.continues_accesses (hw : Seam w w') {inner : Check} (hinner : Keeps w w' inner) :
    Continues w w' (accesses inner) := by
  intro ts ts' h
  induction hn : ts.length using Nat.strongRecOn generalizing ts ts' with
  | ind n ih =>
  subst hn
  rw [accesses.eq_def, accesses.eq_def inner ts']
  rcases h with h | ⟨rfl, rfl⟩
  · rw [← h.opensAccess_eq]
    split
    · have haccess := hw.keeps_access hinner h
      generalize access inner ts = o, access inner ts' = o' at haccess
      cases haccess with
      | none => exact .none
      | @some r r' hr =>
        dsimp only
        have hiff := hr.length_lt_iff h.orBehind
        by_cases hlt : r.length < ts.length
        · rw [if_pos hlt, if_pos (hiff.mp hlt)]
          exact ih _ hlt hr rfl
        · rw [if_neg hlt, if_neg (hlt ∘ hiff.mpr)]
          exact .none
    · exact .some h.orBehind
  · rw [hw.left.opensAccess_eq, hw.right.opensAccess_eq]
    exact .some (.inr ⟨rfl, rfl⟩)

theorem Seam.keeps_member (hw : Seam w w') {inner : Check} (hinner : Keeps w w' inner) :
    Keeps w w' (member inner) :=
  Keeps.bind (hw.keeps_primary hinner) (hw.continues_accesses hinner)

theorem Alike.sameValue_signs (h : Alike w w' ts ts') {s : String} (hsign : s ≠ "\x7d")
    (n : Nat) : SameValue (Alike w w') (signs s n ts) (signs s n ts') := by
  induction n generalizing ts ts' with
  | zero => exact ⟨rfl, h⟩
  | succ n ih =>
    rw [signs, signs]
    have hmark := h.rel_mark hsign
    generalize mark s ts = o, mark s ts' = o' at hmark
    cases hmark with
    | none => exact ⟨rfl, h⟩
    | some hr => exact ⟨rfl, (ih hr).2⟩

theorem Seam.keeps_unary (hw : Seam w w') {inner : Check} (hinner : Keeps w w' inner) :
    Keeps w w' (unary inner) := by
  intro ts ts' h
  have hminus := h.sameValue_signs (s := "-") (by decide) 4
  have hnot := h.sameValue_signs (s := "!") (by decide) 4
  rw [unary, unary]
  generalize signs "-" 4 ts = p, signs "-" 4 ts' = p' at hminus
  obtain ⟨signed, r⟩ := p
  obtain ⟨_, r'⟩ := p'
  obtain ⟨rfl, hr⟩ := hminus
  change Alike w w' r r' at hr
  cases signed with
  | false => exact hw.keeps_member hinner hnot.2
  | true =>
    have hmember := hw.keeps_member hinner hr
    cases hr with
    | brace => exact hmember
    | cons t hr =>
      cases t with
      | number n =>
        dsimp only
        split
        · exact hw.continues_accesses hinner hr.orBehind
        · exact .none
      | _ => exact hmember

/-! ## Operators -/

theorem FollowsClause.chainFrom_eq_some (h : FollowsClause w) {operators : List String}
    (hoperators : ";" ∉ operators) (operand : Check) : chainFrom operators operand w = some w := by
  cases h with
  | semicolon rest => rw [chainFrom, if_neg hoperators]
  | clause _ rest => rw [chainFrom.eq_def]

theorem Seam.continues_chainFrom (hw : Seam w w') {operators : List String}
    (hsemicolon : ";" ∉ operators) (hbrace : "\x7d" ∉ operators) {operand : Check}
    (hoperand : Keeps w w' operand) : Continues w w' (chainFrom operators operand) := by
  intro ts ts' h
  induction hn : ts.length using Nat.strongRecOn generalizing ts ts' with
  | ind n ih =>
  subst hn
  rcases h with h | ⟨rfl, rfl⟩
  · cases h with
    | brace =>
      rw [chainFrom, chainFrom, if_neg hbrace, if_neg hbrace]
      exact .some (.inl .brace)
    | cons t h =>
      cases t with
      | mark m =>
        rw [chainFrom, chainFrom]
        split
        · have hafter := hoperand h
          rename_i us us' _
          generalize operand us = o, operand us' = o' at hafter
          cases hafter with
          | none => exact .none
          | @some after after' hafter =>
            dsimp only
            have hiff := hafter.length_lt_iff h.orBehind
            by_cases hlt : after.length < us.length
            · rw [if_pos hlt, if_pos (hiff.mp hlt)]
              exact ih _ (Nat.lt_succ_of_lt hlt) hafter rfl
            · rw [if_neg hlt, if_neg (hlt ∘ hiff.mpr)]
              exact .none
        · exact .some (.inl (.cons _ h))
      | _ =>
        rw [chainFrom.eq_def, chainFrom.eq_def]
        exact .some (.inl (.cons _ h))
  · rw [hw.left.chainFrom_eq_some hsemicolon, hw.right.chainFrom_eq_some hsemicolon]
    exact .some (.inr ⟨rfl, rfl⟩)

theorem Seam.keeps_chain (hw : Seam w w') {operators : List String} (hsemicolon : ";" ∉ operators)
    (hbrace : "\x7d" ∉ operators) {operand : Check} (hoperand : Keeps w w' operand) :
    Keeps w w' (chain operators operand) :=
  Keeps.bind hoperand (hw.continues_chainFrom hsemicolon hbrace hoperand)

theorem Seam.keeps_sum (hw : Seam w w') {inner : Check} (hinner : Keeps w w' inner) :
    Keeps w w' (sum inner) :=
  hw.keeps_chain (by decide) (by decide) <|
    hw.keeps_chain (by decide) (by decide) (hw.keeps_unary hinner)

theorem Alike.names (h : Alike w w' ts ts') :
    Alike w w' (attributes.names ts) (attributes.names ts') := by
  fun_induction attributes.names ts generalizing ts' with
  | case1 name rest hname =>
    obtain ⟨us, rfl, hus⟩ := h.tail (by decide)
    obtain ⟨vs, rfl, -⟩ := hus.tail (by simp)
    rwa [attributes.names, if_pos hname]
  | case2 name rest hname ih =>
    obtain ⟨us, rfl, hus⟩ := h.tail (by decide)
    obtain ⟨vs, rfl, hvs⟩ := hus.tail (by simp)
    rw [attributes.names, if_neg hname]
    exact ih hvs
  | case3 ts hname =>
    rw [attributes.names.eq_def]
    split
    · obtain ⟨us, rfl, hus⟩ := h.symm.tail (by decide)
      obtain ⟨vs, rfl, -⟩ := hus.tail (by simp)
      exact (hname _ _ rfl).elim
    · exact h

theorem Alike.rel_attributes (h : Alike w w' ts ts') :
    Option.Rel (Alike w w') (attributes ts) (attributes ts') := by
  have hnames : Option.Rel (Alike w w')
      ((name? ts).bind fun a => some (attributes.names a.2))
      ((name? ts').bind fun a => some (attributes.names a.2)) :=
    rel_bind h.rel_name fun hsame => .some (Alike.names hsame.2)
  cases h with
  | brace => exact hnames
  | cons t h =>
    cases t with
    | string body =>
      rw [attributes, attributes]
      split
      · exact .some h
      · exact .none
    | _ => exact hnames

/-- What may stand behind the first sum of a relation. -/
def relationFrom (inner : Check) (rest : List Token) : Option (List Token) :=
  match rest with
  | .mark m :: after => if m ∈ comparisons then sum inner after else some rest
  | .ident "in" :: after => sum inner after
  | .ident "has" :: after => attributes after
  | .ident "like" :: .string body :: after => if isPattern body then some after else none
  | .ident "is" :: after =>
    (typePath after).bind fun after =>
      match word "in" after with
      | some more => sum inner more
      | none => some after
  | _ => some rest

theorem relation_eq (inner : Check) (ts : List Token) :
    relation inner ts = (sum inner ts).bind (relationFrom inner) :=
  rfl

theorem FollowsClause.relationFrom_eq_some (h : FollowsClause w) (inner : Check) :
    relationFrom inner w = some w := by
  cases h with
  | semicolon rest => rfl
  | @clause s hs rest =>
    have hne : ∀ {k}, k ∈ reserved → s ≠ k := fun hk heq => hs (heq ▸ hk)
    have hin := hne (k := "in") (by decide)
    have hhas := hne (k := "has") (by decide)
    have hlike := hne (k := "like") (by decide)
    have his := hne (k := "is") (by decide)
    simp [relationFrom, hin, hhas, hlike, his]

theorem Seam.continues_relationFrom (hw : Seam w w') {inner : Check} (hinner : Keeps w w' inner) :
    Continues w w' (relationFrom inner) := by
  intro ts ts' h
  rcases h with h | ⟨rfl, rfl⟩
  · rw [relationFrom.eq_def]
    split
    · rename_i m after
      by_cases hm : m ∈ comparisons
      · have hne : Token.mark m ≠ .mark "\x7d" := by
          rintro ⟨⟩
          exact absurd hm (by decide)
        obtain ⟨us, rfl, hus⟩ := h.tail hne
        rw [relationFrom, if_pos hm, if_pos hm]
        exact hw.keeps_sum hinner hus
      · cases h with
        | brace => exact .some (.inl .brace)
        | cons _ h =>
          rw [relationFrom, if_neg hm, if_neg hm]
          exact .some (.inl (.cons _ h))
    · obtain ⟨us, rfl, hus⟩ := h.tail (by simp)
      exact hw.keeps_sum hinner hus
    · obtain ⟨us, rfl, hus⟩ := h.tail (by simp)
      exact rel_mono hus.rel_attributes Alike.orBehind
    · obtain ⟨us, rfl, hus⟩ := h.tail (by simp)
      obtain ⟨vs, rfl, hvs⟩ := hus.tail (by simp)
      rw [relationFrom]
      split
      · exact .some hvs.orBehind
      · exact .none
    · obtain ⟨us, rfl, hus⟩ := h.tail (by simp)
      refine rel_bind hus.rel_typePath ?_
      intro after after' hafter
      have hin := hafter.rel_word "in"
      generalize word "in" after = o, word "in" after' = o' at hin
      cases hin with
      | none => exact .some hafter.orBehind
      | some hmore => exact hw.keeps_sum hinner hmore
    · rename_i hmark hin hhas hlike his
      have hstop : relationFrom inner ts' = some ts' := by
        rw [relationFrom.eq_def]
        split
        · rename_i m after
          cases h with
          | brace => exact (hmark _ _ rfl).elim
          | cons _ h => exact (hmark _ _ rfl).elim
        · obtain ⟨us, rfl, hus⟩ := h.symm.tail (by simp)
          exact (hin _ rfl).elim
        · obtain ⟨us, rfl, hus⟩ := h.symm.tail (by simp)
          exact (hhas _ rfl).elim
        · obtain ⟨us, rfl, hus⟩ := h.symm.tail (by simp)
          obtain ⟨vs, rfl, hvs⟩ := hus.tail (by simp)
          exact (hlike _ _ rfl).elim
        · obtain ⟨us, rfl, hus⟩ := h.symm.tail (by simp)
          exact (his _ rfl).elim
        · rfl
      rw [hstop]
      exact .some h.orBehind
  · rw [hw.left.relationFrom_eq_some, hw.right.relationFrom_eq_some]
    exact .some (.inr ⟨rfl, rfl⟩)

theorem Seam.keeps_relation (hw : Seam w w') {inner : Check} (hinner : Keeps w w' inner) :
    Keeps w w' (relation inner) := by
  intro ts ts' h
  rw [relation_eq, relation_eq]
  exact Keeps.bind (hw.keeps_sum hinner) (hw.continues_relationFrom hinner) h

theorem Seam.keeps_disjunction (hw : Seam w w') {inner : Check} (hinner : Keeps w w' inner) :
    Keeps w w' (disjunction inner) :=
  hw.keeps_chain (by decide) (by decide) <|
    hw.keeps_chain (by decide) (by decide) (hw.keeps_relation hinner)

/-- An expression is checked alike in texts that are alike. -/
theorem Seam.keeps_expr (hw : Seam w w') (levels : Nat) : Keeps w w' (expr levels) := by
  induction levels with
  | zero => exact fun _ => .none
  | succ n ih =>
    intro ts ts' h
    rw [expr, expr]
    have hif := h.rel_word "if"
    generalize word "if" ts = o, word "if" ts' = o' at hif
    cases hif with
    | none => exact hw.keeps_disjunction ih h
    | some hcondition =>
      refine rel_bind (ih hcondition) fun hr => ?_
      refine rel_bind (hw.rel_word hr (by decide)) fun hthen => ?_
      refine rel_bind (ih hthen) fun hr => ?_
      exact rel_bind (hw.rel_word hr (by decide)) ih

end

end PolicyDialects.Cedar.Language
