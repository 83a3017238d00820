import PolicyDialects.Proofs.Provider.AllOrNothing

/-!
# One entry for each resource

A store that only a Google Cloud provider writes to.

* `written` — the store after policies were written to it some times.
* `lastWritten` — the assignments of the last policies that could be written.
* `KeepsEntries` — a resource keeps its entry, and a new one gets a new id.

Results:

* `mem_targets`: an assignment goes to the entry of its resource or to a later one.
* `storedAssignments_written`: the store holds what was last written, with one entry
  for each resource.
* `written_keepsEntries`: entries are stable over any number of writes.
-/

namespace PolicyDialects.Provider

open Gcp (Assignment)
open Idql (Policy)
open Store (Sound idOf)

section

variable {stored : List (String × Assignment)}

/-! ## One write -/

theorem current_eq_self (h : (stored.map (·.2.resourceId)).Nodup) : current stored = stored := by
  induction stored with
  | nil => rfl
  | cons e stored ih =>
    obtain ⟨hfirst, hstored⟩ := List.nodup_cons.mp h
    rw [current, if_neg hfirst, ih hstored]

/-- An assignment goes to the entry of its resource, or else to one with a later number. -/
theorem mem_targets {created : Nat} {as : List Assignment} {e : String × Assignment}
    (h : e ∈ targets stored created as) :
    (∃ old ∈ stored, old.2.resourceId = e.2.resourceId ∧ old.1 = e.1) ∨
      e.2.resourceId ∉ stored.map (·.2.resourceId) ∧ ∃ n, created < n ∧ e.1 = idOf n := by
  induction as generalizing created with
  | nil => cases h
  | cons a as ih =>
    have hcreated : created ≤ (target stored created a).2 := by
      rw [target]
      split
      · exact Nat.le_refl _
      · exact Nat.le_succ _
    rcases List.mem_cons.mp h with rfl | hrest
    · rw [target]
      cases hfind : stored.find? (·.2.resourceId = a.resourceId) with
      | some old =>
        have hsame : old.2.resourceId = a.resourceId := by simpa using List.find?_some hfind
        exact .inl ⟨old, List.mem_of_find?_eq_some hfind, hsame, rfl⟩
      | none =>
        refine .inr ⟨fun hmem => ?_, _, Nat.lt_succ_self created, rfl⟩
        obtain ⟨old, hold, hsame⟩ := List.mem_map.mp hmem
        exact absurd (decide_eq_true hsame) (List.find?_eq_none.mp hfind old hold)
    · rcases ih hrest with hold | ⟨hnew, n, hn, hid⟩
      · exact .inl hold
      · exact .inr ⟨hnew, n, Nat.lt_of_le_of_lt hcreated hn, hid⟩

/-- Where each resource has one entry, the assignments replace the entries. -/
theorem runOn_setGcpPolicies_of_nodup {s : Store} (hs : Sound s)
    (hstored : storedAssignments.runOn s = (.ok stored, s))
    (hnodup : (stored.map (·.2.resourceId)).Nodup) {names : NameMap} {ps : List Policy}
    {as : List Assignment} (has : Gcp.assignmentsOf names ps = .ok as) :
    ∃ s' stored', (setGcpPolicies names ps).runOn s = (.ok as.length, s') ∧
      storedAssignments.runOn s' = (.ok stored', s') ∧
      stored'.Perm (targets stored s.created as) := by
  obtain ⟨s', hrun, hs', hholds⟩ := runOn_setGcpPolicies hs has hstored
  rw [current_eq_self hnodup, superseded_eq_nil_iff.mpr hnodup, List.append_nil] at hholds
  obtain ⟨stored', hstored', hperm⟩ := hholds.storedAssignments hs'
  exact ⟨s', stored', hrun, hstored', hperm⟩

end

/-! ## Any number of writes -/

/-- The store after policies were written to it, one list after the other. -/
def written (names : NameMap) (calls : List (List Policy)) : Store :=
  after (calls.map (.setGcpPolicies names))

/-- The assignments of the last policies that have some. -/
def lastWritten (names : NameMap) (calls : List (List Policy)) : List Assignment :=
  calls.foldl (fun last ps =>
    match Gcp.assignmentsOf names ps with
    | .ok as => as
    | .error _ => last) []

/-- The ids that were in use at some time. -/
def usedIds (names : NameMap) (calls : List (List Policy)) : Set String :=
  {id | ∃ past, past <+: calls ∧ id ∈ (written names past).ids}

/-- The entry of a resource keeps its id, and the id of a new resource was not in use. -/
structure KeepsEntries (stored stored' : List (String × Assignment)) (used : Set String) :
    Prop where
  kept : ∀ e ∈ stored, ∀ e' ∈ stored', e.2.resourceId = e'.2.resourceId → e.1 = e'.1
  fresh : ∀ e' ∈ stored', e'.2.resourceId ∉ stored.map (·.2.resourceId) → e'.1 ∉ used

section

variable (names : NameMap) (calls : List (List Policy))

theorem sound_written : Sound (written names calls) := Reachable.sound ⟨_, rfl⟩

theorem written_concat (ps : List Policy) :
    written names (calls ++ [ps]) = ((setGcpPolicies names ps).runOn (written names calls)).2 := by
  rw [written, List.map_append, after, List.foldl_append]
  change ((Request.setGcpPolicies names ps).program.runOn (written names calls)).2 = _
  rw [Request.program, StoreM.runOn_bind]
  generalize (setGcpPolicies names ps).runOn (written names calls) = r
  obtain ⟨_ | _, _⟩ := r <;> rfl

theorem lastWritten_concat (ps : List Policy) :
    lastWritten names (calls ++ [ps]) = match Gcp.assignmentsOf names ps with
      | .ok as => as
      | .error _ => lastWritten names calls := by
  rw [lastWritten, List.foldl_append]
  rfl

/-- The store holds what was last written, with one entry for each resource. -/
theorem storedAssignments_written :
    ∃ stored, storedAssignments.runOn (written names calls) = (.ok stored, written names calls) ∧
      (stored.map (·.2.resourceId)).Nodup ∧ (stored.map (·.2)).Perm (lastWritten names calls) := by
  induction calls using List.reverseRecOn with
  | nil => exact ⟨[], rfl, List.nodup_nil, .refl _⟩
  | append_singleton calls ps ih =>
    obtain ⟨stored, hstored, hnodup, hperm⟩ := ih
    rw [written_concat, lastWritten_concat]
    cases has : Gcp.assignmentsOf names ps with
    | error e =>
      rw [runOn_setGcpPolicies_of_refused has]
      exact ⟨stored, hstored, hnodup, hperm⟩
    | ok as =>
      obtain ⟨s', stored', hrun, hstored', hperm'⟩ :=
        runOn_setGcpPolicies_of_nodup (sound_written names calls) hstored hnodup has
      rw [hrun]
      have hassignments : (stored'.map (·.2)).Perm as := by
        have hmap := hperm'.map (·.2)
        rwa [map_snd_targets] at hmap
      refine ⟨stored', hstored', ?_, hassignments⟩
      have hresources := hassignments.map (·.resourceId)
      rw [List.map_map] at hresources
      exact hresources.nodup_iff.mpr (Gcp.nodup_assignmentsOf has)

theorem idOf_not_mem_usedIds {n : Nat} (h : (written names calls).created < n) :
    idOf n ∉ usedIds names calls := by
  rintro ⟨past, hpast, hid⟩
  exact not_mem_ids_of_prefix (hpast.map _) h hid

/-- After any number of writes, each resource has one entry, and the entries say what was
last written. The next write fails on its policies alone, and then changes nothing;
otherwise resources keep their entries, and new ones get ids that were never in use. -/
theorem written_keepsEntries (ps : List Policy) :
    ∃ stored, storedAssignments.runOn (written names calls) = (.ok stored, written names calls) ∧
      (stored.map (·.2.resourceId)).Nodup ∧ (stored.map (·.2)).Perm (lastWritten names calls) ∧
      match (setGcpPolicies names ps).runOn (written names calls) with
      | (.error e, s') => Gcp.assignmentsOf names ps = .error e ∧ s' = written names calls
      | (.ok n, s') => ∃ as stored', Gcp.assignmentsOf names ps = .ok as ∧ n = as.length ∧
          storedAssignments.runOn s' = (.ok stored', s') ∧
          KeepsEntries stored stored' (usedIds names calls) := by
  obtain ⟨stored, hstored, hnodup, hperm⟩ := storedAssignments_written names calls
  refine ⟨stored, hstored, hnodup, hperm, ?_⟩
  cases has : Gcp.assignmentsOf names ps with
  | error e =>
    rw [runOn_setGcpPolicies_of_refused has]
    exact ⟨rfl, rfl⟩
  | ok as =>
    obtain ⟨s', stored', hrun, hstored', hperm'⟩ :=
      runOn_setGcpPolicies_of_nodup (sound_written names calls) hstored hnodup has
    rw [hrun]
    refine ⟨as, stored', rfl, rfl, hstored', fun e he e' he' hsame => ?_, fun e' he' hnew => ?_⟩
    · rcases mem_targets (hperm'.subset he') with ⟨old, hold, hsame', hid⟩ | ⟨hnew, -⟩
      · rw [List.inj_on_of_nodup_map hnodup he hold (hsame.trans hsame'.symm), hid]
      · exact absurd (List.mem_map.mpr ⟨e, he, hsame⟩) hnew
    · rcases mem_targets (hperm'.subset he') with ⟨old, hold, hsame, -⟩ | ⟨-, n, hn, hid⟩
      · exact absurd (List.mem_map.mpr ⟨old, hold, hsame⟩) hnew
      · exact hid ▸ idOf_not_mem_usedIds names calls hn

end

end PolicyDialects.Provider
