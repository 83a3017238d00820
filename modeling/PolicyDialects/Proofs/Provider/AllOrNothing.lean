import PolicyDialects.Proofs.Provider.Runs
import PolicyDialects.Proofs.Store.Replacing

/-!
# Writes that happen as a whole

* `AllOrNothing` — a program whose answer is settled before it writes, and that writes
  nothing when it fails.

Results:

* `not_mem_ids_of_prefix`: an id with a later number was not in use so far.
* `runOn_setCedarPolicies`, `allOrNothing_setGcpPolicies`: what each provider answers,
  whatever the store holds.
* `set_allOrNothing`: writing policies fails only on what it is given, and leaves no
  trace then.
-/

namespace PolicyDialects.Provider

open Gcp (Assignment)
open Idql (Policy)
open Store (Sound cleared extended idOf)

/-- The program has the answer, whatever its writes do, and with an error it leaves the
store as it was. -/
structure AllOrNothing {α : Type} (p : StoreM α) (s : Store) (answer : Except PolicyError α) :
    Prop where
  answers : (p.runOn s).1 = answer
  unchanged : ∀ e, answer = .error e → (p.runOn s).2 = s

/-! ## Ids that were in use -/

/-- An id with a later number was not in use so far. -/
theorem not_mem_ids_of_prefix {past requests : List Request} (h : past <+: requests) {n : Nat}
    (hn : (after requests).created < n) : idOf n ∉ (after past).ids := by
  intro hid
  have hpast : Sound (after past) := Reachable.sound ⟨past, rfl⟩
  obtain ⟨k, hk, heq⟩ := hpast.issued _ hid
  obtain ⟨rest, rfl⟩ := h
  have hle : (after past).created ≤ (after (past ++ rest)).created := by
    rw [after, after, List.foldl_append]
    exact foldl_perform (Store.kept_created_le _) (Nat.le_refl _) rest
  have hsame := Store.idOf_injective heq
  omega

/-! ## Writing policies -/

theorem runOn_setCedarPolicies {s : Store} (h : Sound s) (m : Cedar.Mapping) (ps : List Policy) :
    (setCedarPolicies m ps).runOn s = match m.documentOf ps with
      | .error e => (.error e, s)
      | .ok d => (.ok d.policies.length, extended (cleared s) (d.policies.map (·.text))) := by
  have hmapping : (ofMapping (m.documentOf ps)).runOn s = (m.documentOf ps, s) :=
    StoreM.runOn_ofExcept _ _
  rw [setCedarPolicies]
  cases hd : m.documentOf ps with
  | error e =>
    rw [hd] at hmapping
    exact StoreM.runOn_bind_of_error hmapping _
  | ok d =>
    rw [hd] at hmapping
    rw [StoreM.runOn_bind_of_ok hmapping, StoreM.runOn_bind_of_ok (StoreM.runOn_ids s),
      StoreM.runOn_bind_of_ok (Store.runOn_deleteAll h),
      StoreM.runOn_bind_of_ok (Store.runOn_createAll (·.text) d.policies (cleared s))]
    rfl

/-- The bodies are decoded one after the other. -/
theorem map_snd_storedAssignments {s : Store} (h : Sound s) :
    (storedAssignments.runOn s).1.map (List.map (·.2)) = s.bodies.mapM Assignment.ofText := by
  rw [runOn_storedAssignments h, Store.bodies, List.mapM_map]
  induction s.entries with
  | nil => rfl
  | cons e entries ih =>
    rw [List.mapM_cons, List.mapM_cons, Function.comp_apply, ← ih]
    cases Assignment.ofText e.2 with
    | error err => rfl
    | ok a =>
      cases entries.mapM fun e => (Assignment.ofText e.2).map fun a => (e.1, a) <;> rfl

theorem allOrNothing_setCedarPolicies {s : Store} (h : Sound s) (m : Cedar.Mapping)
    (ps : List Policy) :
    AllOrNothing (setCedarPolicies m ps) s ((m.documentOf ps).map (·.policies.length)) := by
  have hrun := runOn_setCedarPolicies h m ps
  cases hd : m.documentOf ps with
  | error e =>
    rw [hd] at hrun
    exact ⟨hrun ▸ rfl, fun _ _ => hrun ▸ rfl⟩
  | ok d =>
    rw [hd] at hrun
    exact ⟨hrun ▸ rfl, fun _ he => nomatch he⟩

theorem allOrNothing_setGcpPolicies {s : Store} (h : Sound s) (names : NameMap)
    (ps : List Policy) :
    AllOrNothing (setGcpPolicies names ps) s (do
      let as ← Gcp.assignmentsOf names ps
      let _ ← s.bodies.mapM Assignment.ofText
      return as.length) := by
  rw [← map_snd_storedAssignments h]
  cases has : Gcp.assignmentsOf names ps with
  | error e =>
    have hrun := runOn_setGcpPolicies_of_refused has s
    exact ⟨hrun ▸ rfl, fun _ _ => hrun ▸ rfl⟩
  | ok as =>
    obtain ⟨r, hstored⟩ : ∃ r, storedAssignments.runOn s = (r, s) :=
      ⟨_, runOn_storedAssignments h⟩
    rw [hstored]
    cases r with
    | error e =>
      have hrun := runOn_setGcpPolicies_of_unread has hstored
      exact ⟨hrun ▸ rfl, fun _ _ => hrun ▸ rfl⟩
    | ok stored =>
      obtain ⟨s', hrun, -, -⟩ := runOn_setGcpPolicies h has hstored
      exact ⟨hrun ▸ rfl, fun _ he => nomatch he⟩

/-- Writing policies fails only on the policies themselves or on a body that cannot be
read, and leaves the store alone then. Otherwise it is carried out: a Cedar provider's
store then holds the printed policies under new ids, in their order. -/
theorem set_allOrNothing (requests : List Request) (ps : List Policy) (m : Cedar.Mapping)
    (names : NameMap) :
    AllOrNothing (setCedarPolicies m ps) (after requests)
        ((m.documentOf ps).map (·.policies.length)) ∧
      AllOrNothing (setGcpPolicies names ps) (after requests) (do
        let as ← Gcp.assignmentsOf names ps
        let _ ← (after requests).bodies.mapM Assignment.ofText
        return as.length) ∧
      ∀ n s', (setCedarPolicies m ps).runOn (after requests) = (.ok n, s') →
        ∃ d, m.documentOf ps = .ok d ∧ s'.size = n ∧
          s'.idsByAge.map s'.get = d.policies.map (fun p => .ok p.text) ∧
          ∀ past, past <+: requests → ∀ id ∈ s'.ids, id ∉ (after past).ids := by
  have hs : Sound (after requests) := Reachable.sound ⟨requests, rfl⟩
  refine ⟨allOrNothing_setCedarPolicies hs m ps, allOrNothing_setGcpPolicies hs names ps,
    fun n s' hrun => ?_⟩
  rw [runOn_setCedarPolicies hs] at hrun
  cases hd : m.documentOf ps with
  | error e => rw [hd] at hrun; cases hrun
  | ok d =>
    rw [hd] at hrun
    obtain ⟨hn, rfl⟩ := Prod.mk.inj hrun
    obtain rfl := Except.ok.inj hn
    refine ⟨d, rfl, ?_, ?_, fun past hpast id hid => ?_⟩
    · rw [Store.size_extended, List.length_map]
      exact Nat.zero_add _
    · rw [Store.map_get_extended (.cleared _), Store.idsByAge_cleared, List.map_map]
      rfl
    · rcases Store.new_of_mem_extended hid with hold | ⟨n, hlater, rfl⟩
      · exact absurd hold List.not_mem_nil
      · exact not_mem_ids_of_prefix hpast hlater

/-- A body that is no assignment stops the one provider before it writes, and is replaced
by the other. -/
theorem set_allOrNothing_unread :
    ((setGcpPolicies .identity [viewerPolicy]).runOn (after [.create "unread"])).2 =
        after [.create "unread"] ∧
      ∃ s', (setCedarPolicies {} [viewerPolicy]).runOn (after [.create "unread"]) = (.ok 1, s') ∧
        s'.size = 1 ∧ idOf 1 ∉ s'.ids := by
  obtain ⟨hcedar, hgcp, hcontents⟩ :=
    set_allOrNothing [.create "unread"] [viewerPolicy] {} .identity
  have hunread : (do
      let as ← Gcp.assignmentsOf .identity [viewerPolicy]
      let _ ← (after [.create "unread"]).bodies.mapM Assignment.ofText
      return as.length) = .error PolicyError.malformedJson := by
    decide +kernel
  have hanswer := hcedar.answers.trans
    (show (({} : Cedar.Mapping).documentOf [viewerPolicy]).map (·.policies.length) = .ok 1 by
      decide +kernel)
  obtain ⟨s', hrun⟩ := StoreM.exists_runOn_eq hanswer
  obtain ⟨-, -, hsize, -, hnew⟩ := hcontents 1 s' hrun
  refine ⟨hgcp.unchanged _ hunread, s', hrun, hsize, fun hid => ?_⟩
  exact hnew [.create "unread"] (List.prefix_refl _) _ hid List.mem_cons_self

end PolicyDialects.Provider
