import PolicyDialects.Proofs.Gcp.Grouping
import PolicyDialects.Proofs.Provider.Contents

/-!
# Assignments brought into a store

* `current` — the last entry of each resource, and `superseded`, the others.
* `targets` — assignments with the ids of the entries that they are written to.

Results:

* `latestEntries_eq`: the entries that the provider knows of are the current ones.
* `runOn_foldlM_writeAssignment`: each assignment goes to its entry.
* `runOn_setGcpPolicies`: writing replaces what the store held, but for superseded
  entries.
-/

namespace PolicyDialects.Provider

open Gcp (Assignment)
open Idql (Policy)
open Store (Sound)

/-! ## Entries of one resource -/

/-- The entries after which comes another one of the same resource. -/
def superseded : List (String × Assignment) → List (String × Assignment)
  | [] => []
  | e :: rest =>
    if e.2.resourceId ∈ rest.map (·.2.resourceId) then e :: superseded rest else superseded rest

/-- The last entry of each resource. -/
def current : List (String × Assignment) → List (String × Assignment)
  | [] => []
  | e :: rest =>
    if e.2.resourceId ∈ rest.map (·.2.resourceId) then current rest else e :: current rest

theorem current_append_superseded_perm (stored : List (String × Assignment)) :
    (current stored ++ superseded stored).Perm stored := by
  induction stored with
  | nil => exact .refl _
  | cons e rest ih =>
    rw [current, superseded]
    split
    · exact List.perm_middle.trans (ih.cons e)
    · exact ih.cons e

theorem current_subset (stored : List (String × Assignment)) : current stored ⊆ stored :=
  fun _ he => (current_append_superseded_perm stored).subset (List.mem_append_left _ he)

theorem nodup_current (stored : List (String × Assignment)) :
    ((current stored).map (·.2.resourceId)).Nodup := by
  induction stored with
  | nil => exact List.nodup_nil
  | cons e rest ih =>
    rw [current]
    split
    · exact ih
    · rename_i hlast
      exact List.nodup_cons.mpr
        ⟨fun hmem => hlast (List.map_subset _ (current_subset rest) hmem), ih⟩

/-- Nothing is superseded just when each resource has one entry. -/
theorem superseded_eq_nil_iff {stored : List (String × Assignment)} :
    superseded stored = [] ↔ (stored.map (·.2.resourceId)).Nodup := by
  induction stored with
  | nil => exact iff_of_true rfl List.nodup_nil
  | cons e rest ih =>
    rw [superseded, List.map_cons, List.nodup_cons]
    split
    · rename_i hlater
      exact iff_of_false (List.cons_ne_nil _ _) fun h => h.1 hlater
    · rename_i hlast
      exact ih.trans (and_iff_right hlast).symm

theorem current_concat (stored : List (String × Assignment)) (e : String × Assignment) :
    current (stored ++ [e]) =
      (current stored).filter (·.2.resourceId ≠ e.2.resourceId) ++ [e] := by
  induction stored with
  | nil => rfl
  | cons first stored ih =>
    have hmem : first.2.resourceId ∈ (stored ++ [e]).map (·.2.resourceId) ↔
        first.2.resourceId ∈ stored.map (·.2.resourceId) ∨
          first.2.resourceId = e.2.resourceId := by simp
    rw [List.cons_append, current, current, ih]
    by_cases hlater : first.2.resourceId ∈ stored.map (·.2.resourceId)
    · rw [if_pos (hmem.mpr (.inl hlater)), if_pos hlater]
    · by_cases hsame : first.2.resourceId = e.2.resourceId
      · rw [if_pos (hmem.mpr (.inr hsame)), if_neg hlater,
          List.filter_cons_of_neg (by simpa using hsame)]
      · rw [if_neg (by simpa using hmem.not.mpr (by simp [hlater, hsame])), if_neg hlater,
          List.filter_cons_of_pos (by simpa using hsame), List.cons_append]

/-- What the provider knows of an entry. -/
def known (e : String × Assignment) : String × String := (e.2.resourceId, e.1)

/-- The provider knows of the current entries. -/
theorem latestEntries_eq (stored : List (String × Assignment)) :
    latestEntries stored = (current stored).map known := by
  induction stored using List.reverseRecOn with
  | nil => rfl
  | append_singleton stored e ih =>
    obtain ⟨id, a⟩ := e
    rw [current_concat, latestEntries, List.foldl_append, ← latestEntries, ih, List.foldl_cons,
      List.foldl_nil, List.map_append]
    dsimp only
    rw [List.filter_map]
    rfl

/-! ## Entries to write -/

/-- The id of the entry that an assignment is written to, and the number of entries
ever created after that. -/
def target (stored : List (String × Assignment)) (created : Nat) (a : Assignment) :
    String × Nat :=
  match stored.find? (·.2.resourceId = a.resourceId) with
  | some (id, _) => (id, created)
  | none => (Store.idOf (created + 1), created + 1)

/-- Assignments with the ids of the entries that they are written to. -/
def targets (stored : List (String × Assignment)) (created : Nat) :
    List Assignment → List (String × Assignment)
  | [] => []
  | a :: as =>
    ((target stored created a).1, a) :: targets stored (target stored created a).2 as

theorem map_snd_targets (stored : List (String × Assignment)) (created : Nat)
    (as : List Assignment) : (targets stored created as).map (·.2) = as := by
  induction as generalizing created with
  | nil => rfl
  | cons a as ih => rw [targets, List.map_cons, ih]

/-- Entries of other resources do not matter. -/
theorem target_filter {stored : List (String × Assignment)} {resourceId : String} {a : Assignment}
    (h : a.resourceId ≠ resourceId) (created : Nat) :
    target (stored.filter (·.2.resourceId ≠ resourceId)) created a = target stored created a := by
  have hfind : (stored.filter (·.2.resourceId ≠ resourceId)).find?
      (·.2.resourceId = a.resourceId) = stored.find? (·.2.resourceId = a.resourceId) := by
    rw [List.find?_filter]
    refine congrArg (List.find? · stored) (funext fun e => ?_)
    by_cases he : e.2.resourceId = a.resourceId
    · simp [he, h]
    · simp [he]
  rw [target, target, hfind]

theorem targets_filter {stored : List (String × Assignment)} {resourceId : String}
    {as : List Assignment} (h : resourceId ∉ as.map (·.resourceId)) (created : Nat) :
    targets (stored.filter (·.2.resourceId ≠ resourceId)) created as =
      targets stored created as := by
  induction as generalizing created with
  | nil => rfl
  | cons a as ih =>
    obtain ⟨ha, has⟩ := List.ne_and_not_mem_of_not_mem_cons h
    rw [targets, targets, target_filter ha.symm, ih has]

/-- The entry of a resource, and the others. -/
theorem perm_cons_filter {stored : List (String × Assignment)}
    (h : (stored.map (·.2.resourceId)).Nodup) {e : String × Assignment} (he : e ∈ stored) :
    stored.Perm (e :: stored.filter (·.2.resourceId ≠ e.2.resourceId)) := by
  induction stored with
  | nil => cases he
  | cons first stored ih =>
    obtain ⟨hfirst, hstored⟩ := List.nodup_cons.mp h
    rcases List.mem_cons.mp he with rfl | he
    · have hothers : stored.filter (·.2.resourceId ≠ e.2.resourceId) = stored :=
        List.filter_eq_self.mpr fun x hx => by
          simpa using fun heq => hfirst (List.mem_map.mpr ⟨x, hx, heq⟩)
      rw [List.filter_cons_of_neg (by simp), hothers]
    · have hother : first.2.resourceId ≠ e.2.resourceId := fun heq =>
        hfirst (List.mem_map.mpr ⟨e, he, heq.symm⟩)
      rw [List.filter_cons_of_pos (by simpa using hother)]
      exact ((ih hstored he).cons first).trans (.swap _ _ _)

/-! ## Writing -/

section

variable {s : Store} {stored rest : List (String × Assignment)}

theorem find?_known (stored : List (String × Assignment)) (resourceId : String) :
    (stored.map known).find? (·.1 = resourceId) =
      (stored.find? (·.2.resourceId = resourceId)).map known :=
  List.find?_map

theorem filter_known (stored : List (String × Assignment)) (resourceId : String) :
    (stored.map known).filter (·.1 ≠ resourceId) =
      (stored.filter (·.2.resourceId ≠ resourceId)).map known :=
  List.filter_map

/-- An assignment goes to the entry of its resource, which is then done with. -/
theorem runOn_writeAssignment (hstored : (stored.map (·.2.resourceId)).Nodup) (hs : Sound s)
    (h : Holds s (stored ++ rest)) (a : Assignment) :
    ∃ s', (writeAssignment (stored.map known) a).runOn s =
        (.ok ((stored.filter (·.2.resourceId ≠ a.resourceId)).map known), s') ∧ Sound s' ∧
      Holds s' (stored.filter (·.2.resourceId ≠ a.resourceId) ++
        ((target stored s.created a).1, a) :: rest) ∧
      s'.created = (target stored s.created a).2 := by
  rw [writeAssignment, find?_known, filter_known, target]
  cases hfind : stored.find? (·.2.resourceId = a.resourceId) with
  | none =>
    have hothers : stored.filter (·.2.resourceId ≠ a.resourceId) = stored :=
      List.filter_eq_self.mpr fun e he => by simpa using List.find?_eq_none.mp hfind e he
    refine ⟨(s.create a.text).2, rfl, hs.create a.text, ?_, rfl⟩
    rw [hothers]
    exact (h.create a).perm List.perm_middle.symm
  | some e =>
    obtain ⟨id, old⟩ := e
    have hsame : old.resourceId = a.resourceId := by simpa using List.find?_some hfind
    have hperm := perm_cons_filter hstored (List.mem_of_find?_eq_some hfind)
    rw [hsame] at hperm
    obtain ⟨s', hupdate, hholds, hcreated⟩ := (h.perm (hperm.append_right rest)).update hs a
    refine ⟨s', ?_, hs.update hupdate, hholds.perm List.perm_middle.symm, hcreated⟩
    dsimp only [Option.map_some, known]
    rw [StoreM.runOn_bind, StoreM.runOn_update, hupdate]
    rfl

/-- All assignments, of one resource each, go to their entries. What is written joins
the entries that are left alone, so the same fact serves for the assignments after
the first. -/
theorem runOn_foldlM_writeAssignment {as : List Assignment} (has : (as.map (·.resourceId)).Nodup)
    (hstored : (stored.map (·.2.resourceId)).Nodup) (hs : Sound s)
    (h : Holds s (stored ++ rest)) :
    ∃ s', (as.foldlM writeAssignment (stored.map known)).runOn s =
        (.ok ((stored.filter (·.2.resourceId ∉ as.map (·.resourceId))).map known), s') ∧
      Sound s' ∧
      Holds s' (stored.filter (·.2.resourceId ∉ as.map (·.resourceId)) ++
        (targets stored s.created as ++ rest)) := by
  induction as generalizing stored rest s with
  | nil =>
    have hall :
        stored.filter (·.2.resourceId ∉ ([] : List Assignment).map (·.resourceId)) = stored :=
      List.filter_eq_self.mpr fun _ _ => by simp
    rw [hall]
    exact ⟨s, rfl, hs, h⟩
  | cons a as ih =>
    obtain ⟨ha, has⟩ := List.nodup_cons.mp has
    obtain ⟨s₁, hrun, hs₁, hholds, hcreated⟩ := runOn_writeAssignment hstored hs h a
    have hnodup : ((stored.filter (·.2.resourceId ≠ a.resourceId)).map (·.2.resourceId)).Nodup :=
      hstored.sublist (List.filter_sublist.map _)
    obtain ⟨s', hrest, hs', hholds'⟩ := ih has hnodup hs₁ hholds
    -- Left out one after the other, or all at once.
    have hothers : (stored.filter (·.2.resourceId ≠ a.resourceId)).filter
        (·.2.resourceId ∉ as.map (·.resourceId)) =
          stored.filter (·.2.resourceId ∉ (a :: as).map (·.resourceId)) := by
      rw [List.filter_filter]
      refine congrArg (List.filter · stored) (funext fun e => ?_)
      rw [← Bool.decide_and, decide_eq_decide, List.map_cons, List.mem_cons, not_or]
      exact and_comm
    rw [hothers, targets_filter ha, hcreated] at hholds'
    rw [hothers] at hrest
    refine ⟨s', ?_, hs', hholds'.perm ((List.perm_middle).append_left _)⟩
    rw [List.foldlM_cons, StoreM.runOn_bind_of_ok hrun, hrest]

/-- The entries that are not written go. -/
theorem runOn_forM_delete (hs : Sound s) (h : Holds s (stored ++ rest)) :
    ∃ s', ((stored.map known).forM fun (_, id) => StoreM.delete id).runOn s = (.ok (), s') ∧
      Sound s' ∧ Holds s' rest := by
  induction stored generalizing s with
  | nil => exact ⟨s, rfl, hs, h⟩
  | cons e stored ih =>
    obtain ⟨s₁, hdelete, hholds, -⟩ := h.delete hs
    obtain ⟨s', hrest, hs', hholds'⟩ := ih (hs.delete hdelete) hholds
    refine ⟨s', ?_, hs', hholds'⟩
    have hrun : (StoreM.delete e.1).runOn s = (.ok (), s₁) := by
      rw [StoreM.runOn_delete, hdelete]
    rw [List.map_cons, ← hrest]
    exact StoreM.runOn_bind_of_ok hrun _

end

/-- When the policies have assignments and the entries can be read, nothing fails:
each assignment is written to its entry, and only superseded entries stay beside
them. -/
theorem runOn_setGcpPolicies {names : NameMap} {ps : List Policy} {as : List Assignment}
    {s : Store} {stored : List (String × Assignment)} (hs : Sound s)
    (has : Gcp.assignmentsOf names ps = .ok as)
    (hstored : storedAssignments.runOn s = (.ok stored, s)) :
    ∃ s', (setGcpPolicies names ps).runOn s = (.ok as.length, s') ∧ Sound s' ∧
      Holds s' (targets (current stored) s.created as ++ superseded stored) := by
  have hnodup := Gcp.nodup_assignmentsOf has
  have hreads := ((storedAssignments_eq_ok_iff hs).mp hstored).2
  have hholds : Holds s (current stored ++ superseded stored) :=
    ⟨stored, hreads, (current_append_superseded_perm stored).symm⟩
  obtain ⟨s₁, hwrite, hs₁, hholds₁⟩ :=
    runOn_foldlM_writeAssignment hnodup (nodup_current stored) hs hholds
  obtain ⟨s', hdelete, hs', hholds'⟩ := runOn_forM_delete hs₁ hholds₁
  refine ⟨s', ?_, hs', hholds'⟩
  have hassignments : (ofMapping (Gcp.assignmentsOf names ps)).runOn s = (.ok as, s) := by
    rw [ofMapping, StoreM.runOn_ofExcept, has]
  rw [setGcpPolicies, StoreM.runOn_bind_of_ok hassignments, StoreM.runOn_bind_of_ok hstored,
    latestEntries_eq, StoreM.runOn_bind_of_ok hwrite, StoreM.runOn_bind_of_ok hdelete]
  rfl

end PolicyDialects.Provider
