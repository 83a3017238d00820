import Mathlib.Data.List.Perm.Basic
import PolicyDialects.Proofs.Gcp.Text
import PolicyDialects.Proofs.Store.Entries
import PolicyDialects.Provider

/-!
# What a store says about assignments

* `Provider.Holds` — the entries of a store read as the given assignments, in
  some order.

Results:

* `storedAssignments_eq_ok_iff`, `Holds.storedAssignments`: the provider reads what
  the store holds.
* `Holds.create`, `Holds.update`, `Holds.delete`: what each write does to it.
-/

namespace PolicyDialects.Provider

open Gcp (Assignment)
open Store (Sound)

/-- The entry reads as the assignment. -/
def Reads (e : String × String) (x : String × Assignment) : Prop :=
  e.1 = x.1 ∧ Assignment.ofText e.2 = .ok x.2

theorem reads_iff {e : String × String} {x : String × Assignment} :
    Reads e x ↔ (Assignment.ofText e.2).map (fun a => (e.1, a)) = .ok x := by
  rw [Reads, map_eq_ok]
  constructor
  · rintro ⟨hid, ha⟩
    exact ⟨x.2, ha, Prod.ext hid rfl⟩
  · rintro ⟨a, ha, rfl⟩
    exact ⟨rfl, ha⟩

/-- The entries of the store read as the assignments, in some order. -/
def Holds (s : Store) (xs : List (String × Assignment)) : Prop :=
  ∃ ys, List.Forall₂ Reads s.entries ys ∧ ys.Perm xs

section

variable {s : Store} {xs ys : List (String × Assignment)}

theorem holds_iff : Holds s xs ↔ ∃ es, s.entries.Perm es ∧ List.Forall₂ Reads es xs := by
  have hcomp : Relation.Comp (List.Forall₂ Reads) List.Perm s.entries xs =
      Relation.Comp List.Perm (List.Forall₂ Reads) s.entries xs := by
    rw [List.forall₂_comp_perm_eq_perm_comp_forall₂]
  exact Iff.of_eq hcomp

theorem Holds.perm (h : Holds s xs) (hperm : xs.Perm ys) : Holds s ys := by
  obtain ⟨zs, hreads, hzs⟩ := h
  exact ⟨zs, hreads, hzs.trans hperm⟩

theorem Holds.length_eq (h : Holds s xs) : xs.length = s.size := by
  obtain ⟨ys, hreads, hperm⟩ := h
  rw [← hperm.length_eq, ← hreads.length_eq, Store.size]

/-! ## Writing -/

theorem Holds.create (h : Holds s xs) (a : Assignment) :
    Holds (s.create a.text).2 ((Store.idOf (s.created + 1), a) :: xs) := by
  obtain ⟨es, hes, hreads⟩ := holds_iff.mp h
  exact holds_iff.mpr ⟨_, (Store.entries_create_perm s a.text).trans (hes.cons _),
    .cons ⟨rfl, a.ofText_text⟩ hreads⟩

theorem Holds.update (hs : Sound s) {id : String} {old : Assignment} (h : Holds s ((id, old) :: xs))
    (a : Assignment) :
    ∃ s', s.update id a.text = .ok s' ∧ Holds s' ((id, a) :: xs) ∧ s'.created = s.created := by
  obtain ⟨_, hes, hreads⟩ := holds_iff.mp h
  obtain ⟨⟨_, body⟩, es, ⟨rfl, -⟩, hrest, rfl⟩ := List.forall₂_cons_right_iff.mp hreads
  obtain ⟨s', hupdate, hes', hcreated⟩ := Store.update_of_perm hs a.text hes
  exact ⟨s', hupdate, holds_iff.mpr ⟨_, hes', .cons ⟨rfl, a.ofText_text⟩ hrest⟩, hcreated⟩

theorem Holds.delete (hs : Sound s) {id : String} {old : Assignment}
    (h : Holds s ((id, old) :: xs)) :
    ∃ s', s.delete id = .ok s' ∧ Holds s' xs ∧ s'.created = s.created := by
  obtain ⟨_, hes, hreads⟩ := holds_iff.mp h
  obtain ⟨⟨_, body⟩, es, ⟨rfl, -⟩, hrest, rfl⟩ := List.forall₂_cons_right_iff.mp hreads
  obtain ⟨s', hdelete, hes', hcreated⟩ := Store.delete_of_perm hs hes
  exact ⟨s', hdelete, holds_iff.mpr ⟨_, hes', hrest⟩, hcreated⟩

/-! ## Reading -/

/-- The provider reads each entry. -/
theorem runOn_storedAssignments (hs : Sound s) :
    storedAssignments.runOn s =
      (s.entries.mapM fun e => (Assignment.ofText e.2).map fun a => (e.1, a), s) := by
  have hentry : ∀ id ∈ s.ids,
      (do return (id, ← ofMapping (Assignment.ofText (← StoreM.fetch id))) :
        StoreM (String × Assignment)).runOn s =
      ((s.get id >>= fun body => (Assignment.ofText body).map fun a => (id, a)), s) := by
    intro id _
    rw [StoreM.runOn_bind, StoreM.runOn_fetch]
    cases s.get id with
    | error e => rfl
    | ok body =>
      change (do return (id, ← ofMapping (Assignment.ofText body)) :
        StoreM (String × Assignment)).runOn s = ((Assignment.ofText body).map fun a => (id, a), s)
      rw [StoreM.runOn_bind, ofMapping, StoreM.runOn_ofExcept]
      cases Assignment.ofText body <;> rfl
  rw [storedAssignments, StoreM.runOn_bind, StoreM.runOn_ids]
  dsimp only
  rw [StoreM.runOn_mapM hentry, Store.ids, List.mapM_map]
  refine congrArg (·, s) (mapM_eq_mapM ?_)
  refine List.forall₂_same.mpr fun e he => ?_
  rw [Function.comp_apply, hs.get_of_mem he]
  rfl

theorem storedAssignments_eq_ok_iff (hs : Sound s) {s' : Store} :
    storedAssignments.runOn s = (.ok xs, s') ↔ s' = s ∧ List.Forall₂ Reads s.entries xs := by
  rw [runOn_storedAssignments hs, Prod.mk.injEq, mapM_eq_ok, and_comm]
  simp only [← reads_iff]
  exact and_congr_left fun _ => eq_comm

/-- The provider reads what the store holds. -/
theorem Holds.storedAssignments (hs : Sound s) (h : Holds s xs) :
    ∃ stored, storedAssignments.runOn s = (.ok stored, s) ∧ stored.Perm xs := by
  obtain ⟨ys, hreads, hperm⟩ := h
  exact ⟨ys, (storedAssignments_eq_ok_iff hs).mpr ⟨rfl, hreads⟩, hperm⟩

end

end PolicyDialects.Provider
