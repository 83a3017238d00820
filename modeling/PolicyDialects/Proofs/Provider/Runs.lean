import PolicyDialects.Proofs.Provider.Reconciling

/-!
# Stores in use

* `Request` — what is asked of a store, by itself or through a provider.
* `Reachable` — the stores after any requests.

Results:

* `Reachable.sound`: requests leave a sound store.
* `setGcpPolicies_eq_ok`: what a provider's store holds after policies were written
  to it; the entries of before are gone just when each resource had one.
-/

namespace PolicyDialects.Provider

open Gcp (Assignment)
open Idql (Policy)
open Store (Sound)
open StoreM (Keeps)

/-! ## Requests -/

/-- What is asked of a store. -/
inductive Request where
  | create (body : String)
  | fetch (id : String)
  | list
  | update (id body : String)
  | delete (id : String)
  | setCedarPolicies (m : Cedar.Mapping) (policies : List Policy)
  | setGcpPolicies (names : NameMap) (policies : List Policy)

/-- The program of a request. -/
def Request.program : Request → StoreM Unit
  | .create body => do let _ ← StoreM.create body
  | .fetch id => do let _ ← StoreM.fetch id
  | .list => do let _ ← StoreM.ids
  | .update id body => StoreM.update id body
  | .delete id => StoreM.delete id
  | .setCedarPolicies m policies => do let _ ← Provider.setCedarPolicies m policies
  | .setGcpPolicies names policies => do let _ ← Provider.setGcpPolicies names policies

/-- The store after a request, which may have failed. -/
def perform (s : Store) (r : Request) : Store := (r.program.runOn s).2

/-- The store after some requests. -/
def after (requests : List Request) : Store := requests.foldl perform .empty

/-- The stores after any requests. -/
def Reachable (s : Store) : Prop := ∃ requests, after requests = s

section

open StoreM (KeptByWrites)

variable {I : Store → Prop}

theorem keeps_writeAssignment (h : KeptByWrites I) (pending : List (String × String))
    (a : Assignment) : Keeps I (writeAssignment pending a) := by
  rw [writeAssignment]
  cases pending.find? (·.1 = a.resourceId) with
  | none => exact (h.keeps_create a.text).bind fun _ => .pure _
  | some entry => exact (h.keeps_update entry.2 a.text).bind fun _ => .pure _

theorem keeps_storedAssignments : Keeps I storedAssignments := by
  rw [storedAssignments]
  refine Keeps.ids.bind fun ids => .mapM fun id => ?_
  refine (Keeps.fetch id).bind fun body => ?_
  exact (Keeps.ofExcept (Assignment.ofText body)).bind fun a => .pure (id, a)

theorem keeps_setGcpPolicies (h : KeptByWrites I) (names : NameMap) (policies : List Policy) :
    Keeps I (setGcpPolicies names policies) := by
  rw [setGcpPolicies, ofMapping]
  refine (Keeps.ofExcept _).bind fun as => keeps_storedAssignments.bind fun stored => ?_
  refine (Keeps.foldlM (keeps_writeAssignment h) _).bind fun stale => ?_
  refine (Keeps.forM fun e => ?_).bind fun _ => .pure as.length
  obtain ⟨_, id⟩ := e
  exact h.keeps_delete id

theorem keeps_setCedarPolicies (h : KeptByWrites I) (m : Cedar.Mapping) (policies : List Policy) :
    Keeps I (setCedarPolicies m policies) := by
  rw [setCedarPolicies, ofMapping]
  refine (Keeps.ofExcept _).bind fun document => Keeps.ids.bind fun ids => ?_
  refine (Keeps.forM h.keeps_delete).bind fun _ => ?_
  have hcreate : ∀ p : Cedar.Policy, Keeps I (do let _ ← StoreM.create p.text) :=
    fun p => (h.keeps_create p.text).bind fun _ => .pure ()
  exact (Keeps.forM hcreate).bind fun _ => .pure document.policies.length

/-- What the operations keep, a request keeps. -/
theorem keeps_program (h : KeptByWrites I) (r : Request) : Keeps I r.program := by
  cases r with
  | create body => exact (h.keeps_create body).bind fun _ => .pure ()
  | fetch id => exact (Keeps.fetch id).bind fun _ => .pure ()
  | list => exact Keeps.ids.bind fun _ => .pure ()
  | update id body => exact h.keeps_update id body
  | delete id => exact h.keeps_delete id
  | setCedarPolicies m policies =>
    exact (keeps_setCedarPolicies h m policies).bind fun _ => .pure ()
  | setGcpPolicies names policies =>
    exact (keeps_setGcpPolicies h names policies).bind fun _ => .pure ()

/-- What the operations keep, a run keeps. -/
theorem foldl_perform (h : KeptByWrites I) {s : Store} (hs : I s) (requests : List Request) :
    I (requests.foldl perform s) := by
  induction requests generalizing s with
  | nil => exact hs
  | cons r requests ih => exact ih (keeps_program h r s hs)

end

/-- Requests leave a sound store. -/
theorem Reachable.sound {s : Store} (h : Reachable s) : Sound s := by
  obtain ⟨requests, rfl⟩ := h
  exact foldl_perform Sound.kept .empty requests

/-! ## Writing policies -/

theorem runOn_setGcpPolicies_of_refused {names : NameMap} {ps : List Policy} {e : PolicyError}
    (h : Gcp.assignmentsOf names ps = .error e) (s : Store) :
    (setGcpPolicies names ps).runOn s = (.error e, s) := by
  rw [setGcpPolicies, ofMapping, h]
  rfl

theorem runOn_setGcpPolicies_of_unread {names : NameMap} {ps : List Policy} {as : List Assignment}
    (h : Gcp.assignmentsOf names ps = .ok as) {s : Store} {e : PolicyError}
    (hstored : storedAssignments.runOn s = (.error e, s)) :
    (setGcpPolicies names ps).runOn s = (.error e, s) := by
  have hassignments : (ofMapping (Gcp.assignmentsOf names ps)).runOn s = (.ok as, s) := by
    rw [ofMapping, StoreM.runOn_ofExcept, h]
  rw [setGcpPolicies, StoreM.runOn_bind_of_ok hassignments, StoreM.runOn_bind_of_error hstored]

/-- Policies that were written are what the store holds, with the entries that were
superseded before: the assignments of the policies are all that it holds just when
each resource had one entry. -/
theorem setGcpPolicies_eq_ok {s : Store} (hs : Reachable s) {names : NameMap} {ps : List Policy}
    {n : Nat} {s' : Store} (h : (setGcpPolicies names ps).runOn s = (.ok n, s')) :
    ∃ as stored stored',
      Gcp.assignmentsOf names ps = .ok as ∧ n = as.length ∧
      storedAssignments.runOn s = (.ok stored, s) ∧
      storedAssignments.runOn s' = (.ok stored', s') ∧
      stored'.Perm (targets (current stored) s.created as ++ superseded stored) ∧
      (s'.size = n ∧ (stored'.map (·.2)).Perm as ↔ (stored.map (·.2.resourceId)).Nodup) := by
  obtain ⟨as, stored, has, hstored⟩ : ∃ as stored, Gcp.assignmentsOf names ps = .ok as ∧
      storedAssignments.runOn s = (.ok stored, s) := by
    cases has : Gcp.assignmentsOf names ps with
    | error e =>
      rw [runOn_setGcpPolicies_of_refused has] at h
      cases h
    | ok as =>
      obtain ⟨r, hstored⟩ : ∃ r, storedAssignments.runOn s = (r, s) :=
        ⟨_, runOn_storedAssignments hs.sound⟩
      cases r with
      | error e =>
        rw [runOn_setGcpPolicies_of_unread has hstored] at h
        cases h
      | ok stored => exact ⟨as, stored, rfl, hstored⟩
  obtain ⟨s₁, hrun, hs₁, hholds⟩ := runOn_setGcpPolicies hs.sound has hstored
  obtain ⟨rfl, rfl⟩ : n = as.length ∧ s' = s₁ := by
    rw [hrun] at h
    simpa [eq_comm] using h
  obtain ⟨stored', hstored', hperm⟩ := hholds.storedAssignments hs₁
  refine ⟨as, stored, stored', has, rfl, hstored, hstored', hperm, ?_⟩
  -- The entries are one for each assignment and the superseded ones, so their number
  -- alone tells whether any entry was superseded.
  have hassignments := hperm.map (·.2)
  rw [List.map_append, map_snd_targets] at hassignments
  have hsize : s'.size = as.length + (superseded stored).length := by
    rw [← hholds.length_eq, List.length_append, ← map_snd_targets (current stored) s.created as,
      List.length_map, map_snd_targets]
  rw [← superseded_eq_nil_iff, hsize]
  constructor
  · rintro ⟨hlength, -⟩
    exact List.eq_nil_of_length_eq_zero (by omega)
  · intro hnone
    rw [hnone, List.map_nil, List.append_nil] at hassignments
    rw [hnone]
    exact ⟨rfl, hassignments⟩

/-- An assignment that lets somebody in, as text on one line. -/
def ownerText : String :=
  "\x7b\"resource_id\":\"projects/p1\",\"bindings\":[\x7b\"role\":\"roles/owner\"," ++
    "\"members\":[\"user:mallory@example.com\"]\x7d]\x7d"

/-- The same resource without bindings. -/
def clearedText : String := "\x7b\"resource_id\":\"projects/p1\",\"bindings\":[]\x7d"

/-- A policy on the resource. -/
def viewerPolicy : Policy :=
  { subjects := ["user:alice@example.com"], actions := ["gcp:roles/viewer"],
    object := "projects/p1" }

/-- The assignment of the policy. -/
def viewerAssignment : Assignment :=
  ⟨"projects/p1", [{ role := "roles/viewer", members := ["user:alice@example.com"] }]⟩

/-- A store with one entry for each of two resources. -/
def separateStore : Store :=
  after [.create ownerText, .create "\x7b\"resource_id\":\"projects/p2\",\"bindings\":[]\x7d"]

theorem setGcpPolicies_separateStore :
    ∃ s', (setGcpPolicies .identity [viewerPolicy]).runOn separateStore = (.ok 1, s') ∧
      s'.size = 1 ∧
      ∃ stored, storedAssignments.runOn s' = (.ok stored, s') ∧
        (stored.map (·.2)).Perm [viewerAssignment] := by
  have hreachable : Reachable separateStore := ⟨_, rfl⟩
  obtain ⟨s', hrun⟩ := StoreM.exists_runOn_eq (p := setGcpPolicies .identity [viewerPolicy])
    (s := separateStore) (r := .ok 1) (by decide +kernel)
  obtain ⟨as, stored, stored', has, -, hstored, hstored', -, hiff⟩ :=
    setGcpPolicies_eq_ok hreachable hrun
  obtain rfl : as = [viewerAssignment] :=
    Except.ok.inj (has.symm.trans (by decide +kernel))
  have hresources : (stored.map (·.2.resourceId)).Nodup := by
    have hread : (storedAssignments.runOn separateStore).1.map
        (fun xs => xs.map (·.2.resourceId)) = .ok ["projects/p1", "projects/p2"] := by
      decide +kernel
    rw [hstored] at hread
    have hids : stored.map (·.2.resourceId) = ["projects/p1", "projects/p2"] :=
      Except.ok.inj hread
    rw [hids]
    decide
  obtain ⟨hsize, hperm⟩ := hiff.mpr hresources
  exact ⟨s', hrun, hsize, stored', hstored', hperm⟩

/-- A store with two entries for one resource. -/
def twinStore : Store := after [.create ownerText, .create clearedText]

/-- Where two entries are about one resource, the first of them outlives the policies
that are written, though the answer counts one entry. -/
theorem setGcpPolicies_twinStore :
    Reachable twinStore ∧
      twinStore.bodies.map Assignment.ofText =
        [.ok ⟨"projects/p1", [{ role := "roles/owner", members := ["user:mallory@example.com"] }]⟩,
         .ok ⟨"projects/p1", []⟩] ∧
      Gcp.assignmentsOf .identity [viewerPolicy] = .ok [viewerAssignment] ∧
      ((setGcpPolicies .identity [viewerPolicy]).runOn twinStore).map id Store.bodies =
        (.ok 1, [ownerText, viewerAssignment.text]) :=
  ⟨⟨_, rfl⟩, by decide +kernel, by decide +kernel, by decide +kernel⟩

end PolicyDialects.Provider
