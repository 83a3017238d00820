import PolicyDialects.Proofs.Store.Age

/-!
# Replacing the entries of a store

* `Store.without`, `Store.cleared` — a store without some or all of its entries, which
  goes on numbering ids.
* `Store.extended` — a store to which texts were added.

Results:

* `runOn_deleteAll`, `runOn_createAll`: the programs that do this, which never fail.
* `map_get_extended`: texts are read in the order in which they were added.
* `new_of_mem_extended`: their ids have later numbers than those given out before.
-/

namespace PolicyDialects.Store

/-! ## Taking entries away -/

/-- The store without the entries of some ids. -/
def without (s : Store) (ids : List String) : Store :=
  { s with entries := s.entries.filter fun e => e.1 ∉ ids }

/-- The store without entries. -/
def cleared (s : Store) : Store := { s with entries := [] }

theorem without_nil (s : Store) : s.without [] = s := by
  have hall : s.entries.filter (fun e => e.1 ∉ ([] : List String)) = s.entries :=
    List.filter_eq_self.mpr fun _ _ => by simp
  rw [without, hall]

theorem without_cons (s : Store) (id : String) (ids : List String) :
    s.without (id :: ids) = (s.without [id]).without ids := by
  rw [without, without, without, List.filter_filter]
  refine congrArg (Store.mk · s.created) (List.filter_congr fun e _ => ?_)
  rw [← Bool.decide_and, decide_eq_decide, List.mem_singleton, List.mem_cons, not_or, and_comm]

theorem without_ids (s : Store) : s.without s.ids = cleared s := by
  have hnone : s.entries.filter (fun e => e.1 ∉ s.ids) = [] :=
    List.filter_eq_nil_iff.mpr fun e he => by
      have hid : e.1 ∈ s.ids := List.mem_map_of_mem he
      simpa using hid
  rw [without, hnone, cleared]

theorem delete_eq_ok {s : Store} {id : String} (h : id ∈ s.ids) :
    s.delete id = .ok (s.without [id]) := by
  simp only [delete, if_pos h, without, List.mem_singleton]

/-- Ids that are in use can be deleted one after the other. -/
theorem runOn_forM_deleteIds {ids : List String} {s : Store} (hnodup : ids.Nodup)
    (hids : ids ⊆ s.ids) : (ids.forM StoreM.delete).runOn s = (.ok (), s.without ids) := by
  induction ids generalizing s with
  | nil =>
    rw [without_nil]
    rfl
  | cons id ids ih =>
    obtain ⟨hid, hnodup⟩ := List.nodup_cons.mp hnodup
    obtain ⟨hfirst, hids⟩ := List.cons_subset.mp hids
    have hdelete := delete_eq_ok hfirst
    have hrun : (StoreM.delete id).runOn s = (.ok (), s.without [id]) := by
      rw [StoreM.runOn_delete, hdelete]
    have hothers : ids ⊆ (s.without [id]).ids := by
      intro key hkey
      rw [ids_delete hdelete, List.mem_filter]
      exact ⟨hids hkey, by simpa using fun heq : key = id => hid (heq ▸ hkey)⟩
    rw [without_cons]
    exact (StoreM.runOn_bind_of_ok hrun _).trans (ih hnodup hothers)

/-- All entries can be deleted. -/
theorem runOn_deleteAll {s : Store} (h : Sound s) :
    (s.ids.forM StoreM.delete).runOn s = (.ok (), cleared s) := by
  rw [runOn_forM_deleteIds h.nodup (List.Subset.refl _), without_ids]

theorem Sound.cleared (s : Store) : Sound (cleared s) :=
  ⟨.nil, fun _ hid => absurd hid List.not_mem_nil⟩

theorem idsByAge_cleared (s : Store) : (cleared s).idsByAge = [] :=
  List.filter_eq_nil_iff.mpr fun id _ => by
    have hnone : id ∉ (cleared s).ids := List.not_mem_nil
    simpa using hnone

/-! ## Adding entries -/

/-- The store after some texts were added. -/
def extended (s : Store) (bodies : List String) : Store :=
  bodies.foldl (fun s body => (s.create body).2) s

theorem runOn_createAll {α : Type} (f : α → String) (xs : List α) (s : Store) :
    (xs.forM fun x => do let _ ← StoreM.create (f x)).runOn s =
      (.ok (), extended s (xs.map f)) := by
  induction xs generalizing s with
  | nil => rfl
  | cons x xs ih =>
    have hrun : (do let _ ← StoreM.create (f x) : StoreM Unit).runOn s =
        (.ok (), (s.create (f x)).2) := rfl
    exact (StoreM.runOn_bind_of_ok hrun _).trans (ih _)

theorem map_get_extended {s : Store} (h : Sound s) (bodies : List String) :
    (extended s bodies).idsByAge.map (extended s bodies).get =
      s.idsByAge.map s.get ++ bodies.map .ok := by
  induction bodies generalizing s with
  | nil => exact (List.append_nil _).symm
  | cons body bodies ih =>
    refine (ih (h.create body)).trans ?_
    rw [h.map_get_create, List.append_assoc]
    rfl

theorem size_extended (s : Store) (bodies : List String) :
    (extended s bodies).size = s.size + bodies.length := by
  induction bodies generalizing s with
  | nil => rfl
  | cons body bodies ih =>
    refine (ih (s.create body).2).trans ?_
    have hsize : (s.create body).2.size = s.size + 1 := (entries_create_perm s body).length_eq
    rw [hsize, List.length_cons]
    omega

/-- The entries that were added have later numbers. -/
theorem new_of_mem_extended {s : Store} {bodies : List String} {id : String}
    (h : id ∈ (extended s bodies).ids) : id ∈ s.ids ∨ ∃ n, s.created < n ∧ id = idOf n := by
  induction bodies generalizing s with
  | nil => exact .inl h
  | cons body bodies ih =>
    rcases @ih (s.create body).2 h with hid | ⟨n, hn, rfl⟩
    · rcases List.mem_cons.mp ((ids_create_perm s body).mem_iff.mp hid) with rfl | hid
      · exact .inr ⟨_, Nat.lt_succ_self _, rfl⟩
      · exact .inl hid
    · exact .inr ⟨n, Nat.lt_of_succ_lt hn, rfl⟩

end PolicyDialects.Store
