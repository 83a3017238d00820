import PolicyDialects.Proofs.Cedar.Language.DocumentTokens

/-!
# What checks of entities take

A check of an entity, of a slot of a head or of a list of actions takes some
tokens off the front of a text, and the same ones whatever stands behind them.

Results:

* `Takes`: the answer of a check depends on what it takes.
* `takes_entity?`, `takes_entityOrSlot`, `actionEntity_takes`, `items_takes`: the
  checks.
* `undelimited_inj`: two ways to cut a text at its first delimiter are the same.
-/

namespace PolicyDialects.Cedar.Language

/-! ## Marks and words -/

theorem mark_eq_some {s : String} {ts r : List Token} (h : mark s ts = some r) :
    ts = .mark s :: r := by
  unfold mark at h
  split at h
  · split at h
    · rename_i heq
      obtain rfl := Option.some.inj h
      rw [heq]
    · cases h
  · cases h

theorem mark_self (s : String) (r : List Token) : mark s (.mark s :: r) = some r := if_pos rfl

theorem word_eq_some {k : String} {ts r : List Token} (h : word k ts = some r) :
    ts = .ident k :: r := by
  unfold word at h
  split at h
  · split at h
    · rename_i heq
      obtain rfl := Option.some.inj h
      rw [heq]
    · cases h
  · cases h

theorem word_self (k : String) (r : List Token) : word k (.ident k :: r) = some r := if_pos rfl

/-! ## Entities -/

/-- The check answers with a value, behind some tokens that are no delimiters; so
it does behind the same tokens in any other text. -/
def Takes {α : Type} (f : List Token → Option (α × List Token)) : Prop :=
  ∀ {ts a r}, f ts = some (a, r) →
    ∃ us, Undelimited us ∧ ts = us ++ r ∧ ∀ r', f (us ++ r') = some (a, r')

/-- Where the first of some tokens stands in a text. -/
theorem first_inj {p : Token → Prop} {us vs r r' : List Token} {t t' : Token}
    (hus : ∀ u ∈ us, ¬ p u) (hvs : ∀ v ∈ vs, ¬ p v) (ht : p t) (ht' : p t')
    (h : us ++ t :: r = vs ++ t' :: r') : us = vs ∧ t = t' ∧ r = r' := by
  induction us generalizing vs with
  | nil =>
    cases vs with
    | nil => exact ⟨rfl, List.cons.inj h⟩
    | cons v vs =>
      obtain ⟨rfl, -⟩ := List.cons.inj h
      exact absurd ht (hvs _ List.mem_cons_self)
  | cons u us ih =>
    cases vs with
    | nil =>
      obtain ⟨rfl, -⟩ := List.cons.inj h
      exact absurd ht' (hus _ List.mem_cons_self)
    | cons v vs =>
      obtain ⟨rfl, htail⟩ := List.cons.inj h
      obtain ⟨rfl, hrest⟩ :=
        ih (List.forall_mem_cons.mp hus).2 (List.forall_mem_cons.mp hvs).2 htail
      exact ⟨rfl, hrest⟩

/-- The first delimiter of a text. -/
theorem undelimited_inj {us vs r r' : List Token} {m m' : String} (hus : Undelimited us)
    (hvs : Undelimited vs) (hm : m ∈ delimiters) (hm' : m' ∈ delimiters)
    (h : us ++ .mark m :: r = vs ++ .mark m' :: r') : us = vs ∧ m = m' ∧ r = r' := by
  have hplain : ∀ {us}, Undelimited us → ∀ u ∈ us, ¬ ∃ m ∈ delimiters, u = .mark m := by
    rintro us hus _ hmem ⟨m, hm, rfl⟩
    exact hus m hm hmem
  obtain ⟨hfront, hmark, hrest⟩ :=
    first_inj (hplain hus) (hplain hvs) ⟨m, hm, rfl⟩ ⟨m', hm', rfl⟩ h
  exact ⟨hfront, Token.mark.inj hmark, hrest⟩

/-- The rest of a path up to an id. -/
theorem pathTail_takes {ts r : List Token} {segments : List String} {id : List Char}
    (h : pathTail ts = (segments, some id, r)) :
    ∃ us, Undelimited us ∧ ts = us ++ r ∧ ∀ r', pathTail (us ++ r') = (segments, some id, r') := by
  fun_induction pathTail ts generalizing segments with
  | case1 id' rest =>
    obtain ⟨rfl, hid, rfl⟩ := Prod.mk.inj h |>.imp_right Prod.mk.inj
    obtain rfl := Option.some.inj hid
    refine ⟨[.mark "::", .string id'], ?_, rfl, fun _ => rfl⟩
    exact (undelimited_nil.cons (by simp)).cons (by decide)
  | case2 => cases h
  | case3 name rest hname more id' after heq ih =>
    obtain ⟨rfl, rfl, rfl⟩ := Prod.mk.inj h |>.imp_right Prod.mk.inj
    obtain ⟨us, hus, rfl, hany⟩ := ih heq
    refine ⟨.mark "::" :: .ident name :: us, (hus.cons (by simp)).cons (by decide), rfl,
      fun r' => ?_⟩
    rw [List.cons_append, List.cons_append, pathTail, if_neg hname, hany]
  | case4 => cases h

theorem name?_eq_some {ts r : List Token} {name : String} (h : name? ts = some (name, r)) :
    name ∉ reserved ∧ ts = .ident name :: r := by
  unfold name? at h
  split at h
  · split at h
    · cases h
    · obtain ⟨rfl, rfl⟩ := Prod.mk.inj (Option.some.inj h)
      exact ⟨‹_›, rfl⟩
  · cases h

theorem name?_of_not_mem {name : String} (h : name ∉ reserved) (r : List Token) :
    name? (.ident name :: r) = some (name, r) := by
  rw [name?, if_neg h]

theorem takes_entity? : Takes entity? := by
  intro ts type r h
  obtain ⟨⟨segments, id, r'⟩, hpath, hid⟩ := Option.bind_eq_some_iff.mp h
  obtain ⟨⟨first, ts'⟩, hname, htail⟩ := Option.bind_eq_some_iff.mp hpath
  obtain ⟨hfirst, rfl⟩ := name?_eq_some hname
  cases id with
  | none => cases hid
  | some id =>
    dsimp only at hid
    split at hid
    · rename_i hisText
      obtain ⟨rfl, rfl⟩ := Prod.mk.inj (Option.some.inj hid)
      obtain ⟨rfl, hmore⟩ := Prod.mk.inj (Option.some.inj htail)
      obtain ⟨more, hmore⟩ : ∃ more, pathTail ts' = (more, some id, r') := ⟨_, Prod.ext rfl hmore⟩
      obtain ⟨us, hus, rfl, hany⟩ := pathTail_takes hmore
      refine ⟨.ident first :: us, hus.cons (by simp), rfl, fun r'' => ?_⟩
      simp only [List.cons_append, entity?, path?, name?_of_not_mem hfirst, hany,
        Option.bind_eq_bind, Option.bind_some, if_pos hisText, Option.pure_def]
    · cases hid

theorem takes_entityOrSlot (slot : String) : Takes (entityOrSlot slot) := by
  intro ts template r h
  unfold entityOrSlot at h
  split at h
  · rename_i rest
    obtain ⟨r', hword, heq⟩ := Option.map_eq_some_iff.mp h
    obtain ⟨rfl, rfl⟩ := Prod.mk.inj heq
    unfold word at hword
    split at hword
    · rename_i name tail
      split at hword
      · rename_i hname
        obtain rfl := Option.some.inj hword
        refine ⟨[.mark "?", .ident name],
          (undelimited_nil.cons (by simp)).cons (by decide), rfl, fun r'' => ?_⟩
        rw [List.cons_append, List.singleton_append, entityOrSlot, word, if_pos hname]
        rfl
      · cases hword
    · cases hword
  · rename_i hslot
    obtain ⟨r', hentity, heq⟩ := Option.map_eq_some_iff.mp h
    obtain ⟨rfl, rfl⟩ := Prod.mk.inj heq
    obtain ⟨⟨type, r''⟩, htake, rfl⟩ := Option.map_eq_some_iff.mp hentity
    obtain ⟨us, hus, rfl, hany⟩ := takes_entity? htake
    refine ⟨us, hus, rfl, fun r'' => ?_⟩
    rw [entityOrSlot, entity, hany]
    · rfl
    · intro rest heq
      cases us with
      | nil => cases hany []
      | cons u us =>
        obtain ⟨rfl, -⟩ := List.cons.inj heq
        exact hslot _ rfl

/-- An action takes at least one token. -/
theorem actionEntity_takes {ts r : List Token} (h : actionEntity ts = some r) :
    ∃ us, us ≠ [] ∧ Undelimited us ∧ ts = us ++ r ∧ ∀ r', actionEntity (us ++ r') = some r' := by
  obtain ⟨⟨type, r'⟩, htake, htype⟩ := Option.bind_eq_some_iff.mp h
  dsimp only at htype
  split at htype
  · rename_i hisAction
    obtain rfl := Option.some.inj htype
    obtain ⟨us, hus, rfl, hany⟩ := takes_entity? htake
    refine ⟨us, ?_, hus, rfl, fun r'' => ?_⟩
    · rintro rfl
      cases hany []
    · rw [actionEntity, hany, Option.bind_eq_bind, Option.bind_some]
      exact if_pos hisAction
  · cases htype

theorem Undelimited.mark_eq_none {us : List Token} {s : String} (h : Undelimited us)
    (hne : us ≠ []) (hs : s ∈ delimiters) (r : List Token) : mark s (us ++ r) = none := by
  obtain ⟨u, us, rfl⟩ := List.exists_cons_of_ne_nil hne
  cases u with
  | mark m =>
    refine if_neg ?_
    rintro rfl
    exact h _ hs List.mem_cons_self
  | _ => rfl

/-- A list of actions up to its bracket. -/
theorem items_takes {ts r : List Token} {n : Nat} (h : items "]" actionEntity ts = some (n, r)) :
    ∃ us, Token.mark "]" ∉ us ∧ ts = us ++ .mark "]" :: r ∧
      ∀ r', items "]" actionEntity (us ++ .mark "]" :: r') = some (n, r') := by
  fun_induction items "]" actionEntity ts generalizing n with
  | case1 ts rest hclose =>
    obtain ⟨rfl, rfl⟩ := Prod.mk.inj (Option.some.inj h)
    refine ⟨[], List.not_mem_nil, mark_eq_some hclose, fun r' => ?_⟩
    rw [List.nil_append, items, mark_self]
  | case2 => cases h
  | case3 ts hopen after hitem rest hcomma hlt ih =>
    obtain ⟨⟨k, r'⟩, hitems, heq⟩ := Option.map_eq_some_iff.mp h
    obtain ⟨rfl, rfl⟩ := Prod.mk.inj heq
    obtain ⟨vs, hvs, rfl, hvany⟩ := ih hitems
    obtain rfl := mark_eq_some hcomma
    obtain ⟨us, hne, hus, rfl, hany⟩ := actionEntity_takes hitem
    refine ⟨us ++ .mark "," :: vs, ?_, by simp, fun r'' => ?_⟩
    · have hclose : Token.mark "]" ∉ us := hus "]" (by decide)
      simp [hclose, hvs]
    · have hlength : (vs ++ .mark "]" :: r'').length <
          (us ++ Token.mark "," :: (vs ++ .mark "]" :: r'')).length := by
        simp only [List.length_append, List.length_cons]
        omega
      rw [List.append_assoc, List.cons_append, items, hus.mark_eq_none hne (by decide), hany]
      dsimp only
      rw [mark_self]
      dsimp only
      rw [if_pos hlength, hvany, Option.map_some]
  | case4 => cases h
  | case5 ts hopen after hitem hcomma =>
    obtain ⟨r', hclose, heq⟩ := Option.map_eq_some_iff.mp h
    obtain ⟨rfl, rfl⟩ := Prod.mk.inj heq
    obtain rfl := mark_eq_some hclose
    obtain ⟨us, hne, hus, rfl, hany⟩ := actionEntity_takes hitem
    refine ⟨us, hus "]" (by decide), rfl, fun r'' => ?_⟩
    rw [items, hus.mark_eq_none hne (by decide), hany]
    dsimp only
    rw [mark_self]
    rfl

/-! ## Slots -/

section

variable {slot name m : String} (r : List Token)

theorem scope_mark (hm : m ≠ "==") :
    scope slot (.ident slot :: .mark m :: r) = some (false, .mark m :: r) := by
  simp [scope, word_self, hm]

theorem scope_eq : scope slot (.ident slot :: .mark "==" :: r) = entityOrSlot slot r := by
  simp [scope, word_self]

theorem scope_in : scope slot (.ident slot :: .ident "in" :: r) = entityOrSlot slot r := by
  simp [scope, word_self]

theorem scope_ident (hin : name ≠ "in") (his : name ≠ "is") :
    scope slot (.ident slot :: .ident name :: r) = some (false, .ident name :: r) := by
  simp [scope, word_self, hin, his]

theorem actionScope_mark (hm : m ≠ "==") :
    actionScope (.ident "action" :: .mark m :: r) = some (.mark m :: r) := by
  simp [actionScope, word_self, hm]

theorem actionScope_eq :
    actionScope (.ident "action" :: .mark "==" :: r) = actionEntity r := by
  simp [actionScope, word_self]

theorem actionScope_in : actionScope (.ident "action" :: .ident "in" :: .mark "[" :: r) =
    (items "]" actionEntity r).map (·.2) := by
  simp [actionScope, word_self]

theorem actionScope_ident (hin : name ≠ "in") :
    actionScope (.ident "action" :: .ident name :: r) = some (.ident name :: r) := by
  simp [actionScope, word_self, hin]

end

end PolicyDialects.Cedar.Language
