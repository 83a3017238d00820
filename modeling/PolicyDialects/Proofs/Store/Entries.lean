import Mathlib.Data.List.Nodup
import PolicyDialects.Proofs.Store.Programs
import PolicyDialects.Proofs.Text.Literals

/-!
# The entries of a store

* `Store.Sound` — an id has one entry, and was given out by the store.

Results:

* `idOf_injective`: no id is given out twice.
* `Sound.get_of_mem`: an entry is found under its id.
* `entries_create_perm`, `update_of_perm`, `delete_of_perm`: one entry comes,
  changes or goes, and the others stay.
* `Sound.find?_create`, `find?_update`, `find?_delete`: what is found under each id
  after an operation.
* `Sound.kept`: each operation leaves a sound store.
-/

namespace PolicyDialects.Store

/-! ## Ids given out -/

/-- No id is given out twice. -/
theorem idOf_injective : Function.Injective idOf := by
  intro m n h
  have hdigits : Text.padded 8 m = Text.padded 8 n := by
    rw [← String.toList_inj] at h
    simpa [idOf] using h
  rw [← Text.numeralValue_padded 8 m, hdigits, Text.numeralValue_padded]

/-- Each id has one entry, and was given out by the store. -/
structure Sound (s : Store) : Prop where
  nodup : s.ids.Nodup
  issued : ∀ id ∈ s.ids, ∃ n ≤ s.created, id = idOf n

theorem Sound.empty : Sound empty := ⟨List.nodup_nil, fun _ h => absurd h List.not_mem_nil⟩

/-- The next id is not in use. -/
theorem Sound.next_not_mem {s : Store} (h : Sound s) : idOf (s.created + 1) ∉ s.ids := by
  intro hmem
  obtain ⟨n, hn, heq⟩ := h.issued _ hmem
  have hsame := idOf_injective heq
  omega

theorem find?_of_mem {entries : List (String × String)} (h : (entries.map Prod.fst).Nodup)
    {e : String × String} (he : e ∈ entries) :
    entries.find? (fun (key, _) => key == e.1) = some e := by
  induction entries with
  | nil => cases he
  | cons first entries ih =>
    obtain ⟨hfirst, hentries⟩ := List.nodup_cons.mp h
    rcases List.mem_cons.mp he with rfl | he
    · exact List.find?_cons_of_pos (by simp)
    · have hother : first.1 ≠ e.1 := fun heq => hfirst (heq ▸ List.mem_map_of_mem he)
      rw [List.find?_cons_of_neg (by simpa using hother), ih hentries he]

/-- An entry is found under its id. -/
theorem Sound.get_of_mem {s : Store} (h : Sound s) {e : String × String} (he : e ∈ s.entries) :
    s.get e.1 = .ok e.2 := by
  rw [get, find?, find?_of_mem h.nodup he, Option.map_some]

/-! ## Operations -/

theorem insertSorted_perm (id body : String) (entries : List (String × String)) :
    (insertSorted id body entries).Perm ((id, body) :: entries) := by
  induction entries with
  | nil => exact .refl _
  | cons e entries ih =>
    rw [insertSorted]
    split
    · exact .refl _
    · exact (ih.cons e).trans (.swap _ _ _)

/-- An entry comes. -/
theorem entries_create_perm (s : Store) (body : String) :
    (s.create body).2.entries.Perm ((idOf (s.created + 1), body) :: s.entries) :=
  insertSorted_perm _ _ _

/-- What an update that succeeds does. -/
theorem eq_of_update {s s' : Store} {id body : String} (h : s.update id body = .ok s') :
    id ∈ s.ids ∧ s' = { s with
      entries := s.entries.map fun e => (e.1, if e.1 = id then body else e.2) } := by
  rw [update] at h
  split at h
  · rename_i hid
    exact ⟨hid, (Except.ok.inj h).symm⟩
  · cases h

theorem eq_of_update_error {s : Store} {id body : String} {e : PolicyError}
    (h : s.update id body = .error e) : id ∉ s.ids ∧ e = notFound id := by
  rw [update] at h
  split at h
  · cases h
  · rename_i hid
    exact ⟨hid, (Except.error.inj h).symm⟩

/-- What a deletion that succeeds does. -/
theorem eq_of_delete {s s' : Store} {id : String} (h : s.delete id = .ok s') :
    id ∈ s.ids ∧ s' = { s with entries := s.entries.filter fun e => e.1 ≠ id } := by
  rw [delete] at h
  split at h
  · rename_i hid
    exact ⟨hid, (Except.ok.inj h).symm⟩
  · cases h

theorem eq_of_delete_error {s : Store} {id : String} {e : PolicyError}
    (h : s.delete id = .error e) : id ∉ s.ids ∧ e = notFound id := by
  rw [delete] at h
  split at h
  · cases h
  · rename_i hid
    exact ⟨hid, (Except.error.inj h).symm⟩

/-- The other entries have other ids. -/
theorem Sound.ne_of_perm {s : Store} (h : Sound s) {id body : String}
    {rest : List (String × String)} (hs : s.entries.Perm ((id, body) :: rest)) :
    id ∈ s.ids ∧ ∀ e ∈ rest, e.1 ≠ id := by
  have hids : s.ids.Perm (id :: rest.map Prod.fst) := hs.map Prod.fst
  obtain ⟨hid, -⟩ := List.nodup_cons.mp (hids.nodup_iff.mp h.nodup)
  exact ⟨hids.mem_iff.mpr List.mem_cons_self, fun e he heq =>
    hid (heq ▸ List.mem_map_of_mem he)⟩

/-- An entry changes. -/
theorem update_of_perm {s : Store} (h : Sound s) {id old : String} (body : String)
    {rest : List (String × String)} (hs : s.entries.Perm ((id, old) :: rest)) :
    ∃ s', s.update id body = .ok s' ∧ s'.entries.Perm ((id, body) :: rest) ∧
      s'.created = s.created := by
  obtain ⟨hid, hrest⟩ := h.ne_of_perm hs
  refine ⟨_, if_pos hid, ?_, rfl⟩
  refine (hs.map _).trans (.of_eq ?_)
  have hsame : rest.map (fun e => (e.1, if e.1 = id then body else e.2)) = rest := by
    conv_rhs => rw [← List.map_id rest]
    exact List.map_congr_left fun e he => by rw [if_neg (hrest e he), id_eq]
  rw [List.map_cons]
  dsimp only
  rw [if_pos rfl, hsame]

/-- An entry goes. -/
theorem delete_of_perm {s : Store} (h : Sound s) {id body : String}
    {rest : List (String × String)} (hs : s.entries.Perm ((id, body) :: rest)) :
    ∃ s', s.delete id = .ok s' ∧ s'.entries.Perm rest ∧ s'.created = s.created := by
  obtain ⟨hid, hrest⟩ := h.ne_of_perm hs
  refine ⟨_, if_pos hid, ?_, rfl⟩
  refine (hs.filter _).trans (.of_eq ?_)
  rw [List.filter_cons_of_neg (by simp)]
  exact List.filter_eq_self.mpr fun e he => by simpa using hrest e he

/-! ## Ids held -/

theorem ids_create_perm (s : Store) (body : String) :
    (s.create body).2.ids.Perm (idOf (s.created + 1) :: s.ids) :=
  (entries_create_perm s body).map Prod.fst

theorem ids_update {s s' : Store} {id body : String} (h : s.update id body = .ok s') :
    s'.ids = s.ids := by
  obtain ⟨-, rfl⟩ := eq_of_update h
  rw [ids, ids, List.map_map]
  rfl

theorem ids_delete {s s' : Store} {id : String} (h : s.delete id = .ok s') :
    s'.ids = s.ids.filter (· ≠ id) := by
  obtain ⟨-, rfl⟩ := eq_of_delete h
  rw [ids, ids, List.filter_map]
  rfl

theorem created_update {s s' : Store} {id body : String} (h : s.update id body = .ok s') :
    s'.created = s.created := by
  rw [(eq_of_update h).2]

theorem created_delete {s s' : Store} {id : String} (h : s.delete id = .ok s') :
    s'.created = s.created := by
  rw [(eq_of_delete h).2]

theorem Sound.create {s : Store} (h : Sound s) (body : String) : Sound (s.create body).2 := by
  have hids := ids_create_perm s body
  refine ⟨hids.nodup_iff.mpr (List.nodup_cons.mpr ⟨h.next_not_mem, h.nodup⟩), fun id hid => ?_⟩
  rcases List.mem_cons.mp (hids.mem_iff.mp hid) with rfl | hid
  · exact ⟨s.created + 1, Nat.le_refl _, rfl⟩
  · obtain ⟨n, hn, rfl⟩ := h.issued id hid
    exact ⟨n, Nat.le_succ_of_le hn, rfl⟩

theorem Sound.update {s s' : Store} (h : Sound s) {id body : String}
    (hs : s.update id body = .ok s') : Sound s' := by
  have hids := ids_update hs
  refine ⟨hids ▸ h.nodup, fun id hid => ?_⟩
  rw [created_update hs]
  exact h.issued id (hids ▸ hid)

theorem Sound.delete {s s' : Store} (h : Sound s) {id : String} (hs : s.delete id = .ok s') :
    Sound s' := by
  have hids := ids_delete hs
  refine ⟨hids ▸ h.nodup.filter _, fun id hid => ?_⟩
  rw [created_delete hs]
  exact h.issued id (List.mem_of_mem_filter (hids ▸ hid))

theorem Sound.kept : StoreM.KeptByWrites Sound where
  create _ h := h.create
  update _ h _ _ _ := h.update
  delete _ h _ _ := h.delete

/-! ## Texts by their ids -/

theorem mem_ids_iff {s : Store} {id : String} : id ∈ s.ids ↔ (s.find? id).isSome := by
  rw [ids, find?, Option.isSome_map, List.find?_isSome, List.mem_map]
  exact exists_congr fun e => and_congr_right fun _ => beq_iff_eq.symm

theorem find?_eq_none_iff {s : Store} {id : String} : s.find? id = none ↔ id ∉ s.ids := by
  rw [mem_ids_iff, Option.not_isSome_iff_eq_none]

theorem Sound.find?_eq_some_iff {s : Store} (h : Sound s) {id body : String} :
    s.find? id = some body ↔ (id, body) ∈ s.entries := by
  constructor
  · intro hfind
    obtain ⟨e, he, rfl⟩ := Option.map_eq_some_iff.mp hfind
    have hid : e.1 = id := by simpa using List.find?_some he
    exact hid ▸ List.mem_of_find?_eq_some he
  · intro he
    rw [find?, find?_of_mem h.nodup he, Option.map_some]

theorem Sound.find?_create {s : Store} (h : Sound s) (body id : String) :
    (s.create body).2.find? id = if id = idOf (s.created + 1) then some body else s.find? id := by
  have hperm := entries_create_perm s body
  ext value
  rw [(h.create body).find?_eq_some_iff, hperm.mem_iff, List.mem_cons, Prod.mk.injEq]
  split
  · rename_i hid
    subst hid
    have hnew : (idOf (s.created + 1), value) ∉ s.entries := fun he =>
      h.next_not_mem (List.mem_map_of_mem he)
    simp [hnew, eq_comm]
  · rename_i hid
    rw [h.find?_eq_some_iff]
    simp [hid]

theorem find?_update {s s' : Store} {id body : String} (h : s.update id body = .ok s')
    (key : String) : s'.find? key = if key = id then some body else s.find? key := by
  obtain ⟨hid, rfl⟩ := eq_of_update h
  have hkeys : ((fun e : String × String => e.1 == key) ∘
      fun e : String × String => (e.1, if e.1 = id then body else e.2)) =
        fun e => e.1 == key := rfl
  rw [find?, List.find?_map, hkeys, find?]
  split
  · rename_i hkey
    subst hkey
    obtain ⟨e, he⟩ := Option.isSome_iff_exists.mp (Option.isSome_map ▸ mem_ids_iff.mp hid)
    have hfound : e.1 = key := by simpa using List.find?_some he
    rw [he]
    simp [hfound]
  · rename_i hkey
    cases he : s.entries.find? fun e => e.1 == key with
    | none => rfl
    | some e =>
      have hfound : e.1 = key := by simpa using List.find?_some he
      simp [hfound, hkey]

theorem find?_delete {s s' : Store} {id : String} (h : s.delete id = .ok s') (key : String) :
    s'.find? key = if key = id then none else s.find? key := by
  obtain ⟨-, rfl⟩ := eq_of_delete h
  rw [find?, find?, List.find?_filter]
  split
  · rename_i hkey
    subst hkey
    rw [List.find?_eq_none.mpr (by simp)]
    rfl
  · rename_i hkey
    refine congrArg (Option.map _) (congrArg (List.find? · s.entries) (funext fun e => ?_))
    by_cases he : e.1 = key
    · simp [he, hkey]
    · simp [he]

end PolicyDialects.Store
