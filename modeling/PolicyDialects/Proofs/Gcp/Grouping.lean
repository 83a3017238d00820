import Mathlib.Data.List.Forall2
import Mathlib.Data.List.Induction
import Mathlib.Data.List.Nodup
import PolicyDialects.Gcp.Mapping
import PolicyDialects.Proofs.Outcome

/-!
# Assignments gathered by resource

Export goes through the policies once and adds the bindings of each to the
assignment of its resource.

* `gathered` — values in groups of one key, the groups in the order in which
  their keys first appear.
* `merged` — assignments with those of one resource made one.

Results:

* `merged_concat`: one more assignment is merged by `addBindings`.
* `nodup_merged`, `bindings_ne_nil_of_mem_merged`: a merged list has each
  resource once, and with bindings.
* `flatMap_placed_merged`: merging gathers the bindings by their resource.
* `merged_flatMap_alone`: what is merged may as well be taken binding by binding.
* `assignmentsOf_eq_ok_iff`: what export makes of policies.
-/

namespace PolicyDialects.Gcp

open Idql (Policy)

/-! ## Groups -/

section

variable {α β κ : Type} [DecidableEq κ]

/-- Values in groups of one key: the groups in the order in which their keys
first appear, and the values of a group in their own order. -/
def gathered (key : α → κ) (xs : List α) : List α :=
  (xs.map key).eraseDups.flatMap fun k => xs.filter fun x => key x = k

theorem mem_gathered {key : α → κ} {xs : List α} {x : α} : x ∈ gathered key xs ↔ x ∈ xs := by
  simp only [gathered, List.mem_flatMap, List.mem_eraseDups, List.mem_map, List.mem_filter,
    decide_eq_true_eq]
  exact ⟨fun ⟨_, _, hx, _⟩ => hx, fun hx => ⟨key x, ⟨x, hx, rfl⟩, hx, rfl⟩⟩

theorem nodup_eraseDups (ks : List κ) : ks.eraseDups.Nodup := by
  induction hn : ks.length using Nat.strongRecOn generalizing ks with
  | ind n ih =>
  subst hn
  cases ks with
  | nil => exact List.nodup_nil
  | cons k ks =>
    rw [List.eraseDups_cons, List.nodup_cons]
    refine ⟨fun hmem => ?_, ih _ ?_ _ rfl⟩
    · have hother := List.of_mem_filter (List.mem_eraseDups.mp hmem)
      simp at hother
    · exact Nat.lt_succ_of_le (List.length_filter_le _ _)

theorem eraseDups_concat (ks : List κ) (k : κ) :
    (ks ++ [k]).eraseDups = if k ∈ ks then ks.eraseDups else ks.eraseDups ++ [k] := by
  rw [List.eraseDups_append]
  by_cases hk : k ∈ ks
  · simp [List.removeAll, hk]
  · simp [List.removeAll, hk, List.eraseDups_cons]

/-- Groups of equal keys have the keys of the groups. -/
theorem eraseDups_flatMap {key : α → κ} {keys : α → List κ} {xs : List α}
    (hne : ∀ x ∈ xs, keys x ≠ []) (hkey : ∀ x ∈ xs, ∀ k ∈ keys x, k = key x) :
    (xs.flatMap keys).eraseDups = (xs.map key).eraseDups := by
  induction xs using List.reverseRecOn with
  | nil => rfl
  | append_singleton xs x ih =>
    obtain ⟨hne, hlast⟩ := List.forall_mem_append.mp hne
    obtain ⟨hkey, hkeyLast⟩ := List.forall_mem_append.mp hkey
    have hmem : key x ∈ xs.flatMap keys ↔ key x ∈ xs.map key := by
      rw [← List.mem_eraseDups, ih hne hkey, List.mem_eraseDups]
    have hx := hlast x List.mem_cons_self
    have hconst := hkeyLast x List.mem_cons_self
    have hsingle : (keys x).eraseDups = [key x] := by
      obtain ⟨k, ks, hks⟩ := List.exists_cons_of_ne_nil hx
      rw [hks] at hconst
      obtain ⟨rfl, hks'⟩ := List.forall_mem_cons.mp hconst
      have hnone : ks.filter (fun l => !l == key x) = [] :=
        List.filter_eq_nil_iff.mpr fun l hl => by simp [hks' l hl]
      rw [hks, List.eraseDups_cons, hnone, List.eraseDups_nil]
    rw [List.flatMap_append, List.flatMap_singleton, List.eraseDups_append, ih hne hkey,
      List.map_append, List.map_singleton, eraseDups_concat]
    by_cases hk : key x ∈ xs.map key
    · have hnone : (keys x).removeAll (xs.flatMap keys) = [] :=
        List.filter_eq_nil_iff.mpr fun l hl => by
          rw [hconst l hl]
          simpa using hmem.mpr hk
      rw [if_pos hk, hnone, List.eraseDups_nil, List.append_nil]
    · have hall : (keys x).removeAll (xs.flatMap keys) = keys x :=
        List.filter_eq_self.mpr fun l hl => by
          rw [hconst l hl]
          simpa using fun hin => hk (hmem.mp hin)
      rw [if_neg hk, hall, hsingle]

/-- Values of one key each, mapped to values of the same key, are gathered in
the same way. -/
theorem forall₂_gathered {key : α → κ} {key' : β → κ} {R : α → β → Prop}
    (hkey : ∀ x y, R x y → key' y = key x) {xs : List α} {ys : List β}
    (h : List.Forall₂ R xs ys) : List.Forall₂ R (gathered key xs) (gathered key' ys) := by
  have hkeys : ys.map key' = xs.map key := by
    induction h with
    | nil => rfl
    | cons hxy _ ih => rw [List.map_cons, List.map_cons, hkey _ _ hxy, ih]
  have hgroups : ∀ ks : List κ, List.Forall₂ R (ks.flatMap fun k => xs.filter fun x => key x = k)
      (ks.flatMap fun k => ys.filter fun y => key' y = k) := by
    intro ks
    induction ks with
    | nil => exact .nil
    | cons k ks ih =>
      refine List.rel_append (List.rel_filter (fun x y hxy => ?_) h) ih
      simp [hkey x y hxy]
  rw [gathered, gathered, hkeys]
  exact hgroups _

/-- A traversal of gathered values gathers the results. -/
theorem mapM_gathered_eq_ok {ε : Type} {f : α → Except ε β} {key : α → κ} {key' : β → κ}
    (hkey : ∀ x y, f x = .ok y → key' y = key x) {xs : List α} {ys : List β} :
    (gathered key xs).mapM f = .ok ys ↔ ∃ zs, xs.mapM f = .ok zs ∧ ys = gathered key' zs := by
  constructor
  · intro h
    have hall : ∀ x ∈ xs, ∃ y, f x = .ok y := fun x hx =>
      forall_of_mapM_eq_ok h x (mem_gathered.mpr hx)
    obtain ⟨zs, hzs⟩ := exists_mapM_eq_ok hall
    refine ⟨zs, hzs, ?_⟩
    have hgathered := mapM_eq_ok.mpr (forall₂_gathered hkey (mapM_eq_ok.mp hzs))
    exact Except.ok.inj (h.symm.trans hgathered)
  · rintro ⟨zs, hzs, rfl⟩
    exact mapM_eq_ok.mpr (forall₂_gathered hkey (mapM_eq_ok.mp hzs))

end

/-! ## Assignments -/

/-- The bindings of a resource among assignments, in their order. -/
def bindingsOn (as : List Assignment) (resourceId : String) : List Binding :=
  (as.filter fun a => a.resourceId = resourceId).flatMap (·.bindings)

/-- Assignments with those of one resource made one, at the place of the first of
them. -/
def merged (as : List Assignment) : List Assignment :=
  (as.map (·.resourceId)).eraseDups.map fun id => ⟨id, bindingsOn as id⟩

theorem bindingsOn_concat (as : List Assignment) (a : Assignment) (id : String) :
    bindingsOn (as ++ [a]) id =
      bindingsOn as id ++ if a.resourceId = id then a.bindings else [] := by
  rw [bindingsOn, List.filter_append, List.flatMap_append, bindingsOn]
  by_cases h : a.resourceId = id <;> simp [h]

/-- Adding to a list that has each resource once. -/
theorem addBindings_map (id : String) (bs : List Binding) {ids : List String} (hids : ids.Nodup)
    (f : String → List Binding) :
    addBindings id bs (ids.map fun k => ⟨k, f k⟩) =
      if id ∈ ids then ids.map fun k => ⟨k, f k ++ if k = id then bs else []⟩
      else (ids.map fun k => ⟨k, f k⟩) ++ [⟨id, bs⟩] := by
  induction ids with
  | nil => rfl
  | cons k ids ih =>
    obtain ⟨hk, hids⟩ := List.nodup_cons.mp hids
    rw [List.map_cons, addBindings]
    by_cases hid : k = id
    · subst hid
      have hothers : (ids.map fun l => (⟨l, f l ++ if l = k then bs else []⟩ : Assignment)) =
          ids.map fun l => ⟨l, f l⟩ := by
        refine List.map_congr_left fun l hl => ?_
        rw [if_neg (ne_of_mem_of_not_mem hl hk), List.append_nil]
      rw [if_pos rfl, if_pos List.mem_cons_self, List.map_cons, hothers, if_pos rfl]
    · rw [if_neg hid, ih hids]
      by_cases hmem : id ∈ ids
      · rw [if_pos hmem, if_pos (List.mem_cons_of_mem _ hmem), List.map_cons, if_neg hid,
          List.append_nil]
      · rw [if_neg hmem, if_neg (by simp [hmem, Ne.symm hid]), List.cons_append]

/-- One more assignment is merged by adding its bindings. -/
theorem merged_concat (as : List Assignment) (a : Assignment) :
    merged (as ++ [a]) = addBindings a.resourceId a.bindings (merged as) := by
  rw [merged, List.map_append, List.map_singleton, eraseDups_concat]
  conv_rhs => rw [merged, addBindings_map _ _ (nodup_eraseDups _)]
  simp only [bindingsOn_concat, List.mem_eraseDups]
  by_cases hmem : a.resourceId ∈ as.map (·.resourceId)
  · rw [if_pos hmem, if_pos hmem]
    simp only [eq_comm]
  · rw [if_neg hmem, if_neg hmem, List.map_append]
    have hnone : bindingsOn as a.resourceId = [] := by
      rw [bindingsOn, List.filter_eq_nil_iff.mpr, List.flatMap_nil]
      exact fun b hb heq => hmem (List.mem_map.mpr ⟨b, hb, by simpa using heq⟩)
    have hothers : ((as.map (·.resourceId)).eraseDups.map fun id =>
        (⟨id, bindingsOn as id ++ if a.resourceId = id then a.bindings else []⟩ : Assignment)) =
        (as.map (·.resourceId)).eraseDups.map fun id => ⟨id, bindingsOn as id⟩ := by
      refine List.map_congr_left fun id hid => ?_
      rw [if_neg (ne_of_mem_of_not_mem (List.mem_eraseDups.mp hid) hmem).symm, List.append_nil]
    rw [hothers, List.map_singleton, hnone, if_pos rfl, List.nil_append]

theorem map_resourceId_merged (as : List Assignment) :
    (merged as).map (·.resourceId) = (as.map (·.resourceId)).eraseDups := by
  rw [merged, List.map_map]
  exact List.map_id _

theorem nodup_merged (as : List Assignment) : ((merged as).map (·.resourceId)).Nodup := by
  rw [map_resourceId_merged]
  exact nodup_eraseDups _

/-- No assignment loses its bindings. -/
theorem bindings_ne_nil_of_mem_merged {as : List Assignment} (h : ∀ a ∈ as, a.bindings ≠ []) :
    ∀ a ∈ merged as, a.bindings ≠ [] := by
  intro a ha
  obtain ⟨id, hid, rfl⟩ := List.mem_map.mp ha
  obtain ⟨b, hb, rfl⟩ := List.mem_map.mp (List.mem_eraseDups.mp hid)
  obtain ⟨x, hx⟩ := List.exists_mem_of_ne_nil _ (h b hb)
  exact List.ne_nil_of_mem (List.mem_flatMap.mpr ⟨b, List.mem_filter.mpr ⟨hb, by simp⟩, hx⟩)

/-- The bindings of an assignment with their resource. -/
def Assignment.placed (a : Assignment) : List (String × Binding) :=
  a.bindings.map fun b => (a.resourceId, b)

theorem bindingsOn_eq (as : List Assignment) (id : String) :
    bindingsOn as id = ((as.flatMap Assignment.placed).filter fun x => x.1 = id).map (·.2) := by
  induction as with
  | nil => rfl
  | cons a as ih =>
    rw [List.flatMap_cons, List.filter_append, List.map_append, ← ih, bindingsOn, List.filter_cons]
    by_cases hid : a.resourceId = id <;>
      simp [hid, Assignment.placed, bindingsOn, List.filter_map, Function.comp_def]

/-- When no assignment is without bindings, the merged ones are known from the
bindings and their resources. -/
theorem merged_eq {as : List Assignment} (h : ∀ a ∈ as, a.bindings ≠ []) :
    merged as = ((as.flatMap Assignment.placed).map (·.1)).eraseDups.map fun id =>
      ⟨id, ((as.flatMap Assignment.placed).filter fun x => x.1 = id).map (·.2)⟩ := by
  have hkeys : (as.flatMap Assignment.placed).map (·.1) =
      as.flatMap fun a => a.bindings.map fun _ => a.resourceId := by
    rw [List.map_flatMap]
    simp only [Assignment.placed, List.map_map, Function.comp_def]
  have hids : (as.flatMap fun a => a.bindings.map fun _ => a.resourceId).eraseDups =
      (as.map (·.resourceId)).eraseDups := eraseDups_flatMap (by simpa using h) (by simp)
  rw [merged, hkeys, hids]
  simp only [bindingsOn_eq]

/-- Merging gathers the bindings by their resource. -/
theorem flatMap_placed_merged {as : List Assignment} (h : ∀ a ∈ as, a.bindings ≠ []) :
    (merged as).flatMap Assignment.placed = gathered (·.1) (as.flatMap Assignment.placed) := by
  rw [merged_eq h, gathered, List.flatMap_map]
  refine List.flatMap_congr fun id _ => ?_
  rw [Assignment.placed, List.map_map]
  conv_rhs => rw [← List.map_id (List.filter _ _)]
  refine List.map_congr_left fun x hx => ?_
  obtain rfl : x.1 = id := by simpa using List.of_mem_filter hx
  rfl

/-- Assignments without bindings place nothing. -/
theorem flatMap_placed_filter (as : List Assignment) :
    (as.filter (·.bindings ≠ [])).flatMap Assignment.placed = as.flatMap Assignment.placed := by
  induction as with
  | nil => rfl
  | cons a as ih =>
    rw [List.filter_cons, List.flatMap_cons, ← ih]
    by_cases ha : a.bindings = [] <;> simp [ha, Assignment.placed]

/-- The bindings of an assignment, each as an assignment of its own. -/
def Assignment.alone (a : Assignment) : List Assignment :=
  a.bindings.map fun b => ⟨a.resourceId, [b]⟩

theorem bindings_ne_nil_of_mem_filter {as : List Assignment} :
    ∀ a ∈ as.filter (·.bindings ≠ []), a.bindings ≠ [] :=
  fun a ha => by simpa using List.of_mem_filter ha

/-- Assignments with bindings may be merged binding by binding. -/
theorem merged_flatMap_alone (as : List Assignment) :
    merged ((as.flatMap Assignment.alone).filter (·.bindings ≠ [])) =
      merged (as.filter (·.bindings ≠ [])) := by
  have halone : (as.flatMap Assignment.alone).flatMap Assignment.placed =
      as.flatMap Assignment.placed := by
    rw [List.flatMap_assoc]
    refine List.flatMap_congr fun a _ => ?_
    rw [Assignment.alone, List.flatMap_map, Assignment.placed, List.map_eq_flatMap]
    rfl
  rw [merged_eq bindings_ne_nil_of_mem_filter, merged_eq bindings_ne_nil_of_mem_filter,
    flatMap_placed_filter, flatMap_placed_filter, halone]

/-! ## Export -/

/-- The bindings that a policy contributes to its object. -/
def assignmentOf (names : NameMap) (p : Policy) : Except PolicyError Assignment := do
  return { resourceId := p.object, bindings := ← bindingsOf names p }

theorem assignmentOf_eq_ok_iff {names : NameMap} {p : Policy} {a : Assignment} :
    assignmentOf names p = .ok a ↔ ∃ bs, bindingsOf names p = .ok bs ∧ a = ⟨p.object, bs⟩ := by
  rw [assignmentOf, bind_eq_ok]
  exact exists_congr fun bs => and_congr_right fun _ => ok_eq_ok

theorem addPolicy_merged_eq_ok_iff {names : NameMap} {as A : List Assignment} {p : Policy} :
    addPolicy names (merged as) p = .ok A ↔
      ∃ a, assignmentOf names p = .ok a ∧ A = merged (as ++ [a].filter (·.bindings ≠ [])) := by
  have hadded : ∀ bs, merged (as ++ [⟨p.object, bs⟩].filter (·.bindings ≠ [])) =
      if bs.isEmpty then merged as else addBindings p.object bs (merged as) := by
    intro bs
    cases bs with
    | nil => simp
    | cons b bs => simp [merged_concat]
  rw [addPolicy, bind_eq_ok]
  constructor
  · rintro ⟨bs, hbs, h⟩
    refine ⟨_, assignmentOf_eq_ok_iff.mpr ⟨bs, hbs, rfl⟩, ?_⟩
    rw [hadded, ← Except.ok.inj h]
  · rintro ⟨a, ha, rfl⟩
    obtain ⟨bs, hbs, rfl⟩ := assignmentOf_eq_ok_iff.mp ha
    exact ⟨bs, hbs, congrArg Except.ok (hadded bs).symm⟩

/-- Policies added to what is already merged. -/
theorem foldlM_addPolicy_eq_ok_iff {names : NameMap} {ps : List Policy} (as : List Assignment)
    {A : List Assignment} :
    ps.foldlM (addPolicy names) (merged as) = .ok A ↔
      ∃ bs, ps.mapM (assignmentOf names) = .ok bs ∧
        A = merged (as ++ bs.filter (·.bindings ≠ [])) := by
  induction ps generalizing as with
  | nil =>
    rw [List.foldlM_nil, List.mapM_nil]
    simp [pure, Except.pure, eq_comm]
  | cons p ps ih =>
    simp only [List.foldlM_cons, bind_eq_ok, addPolicy_merged_eq_ok_iff, mapM_eq_ok,
      List.forall₂_cons_left_iff]
    constructor
    · rintro ⟨-, ⟨a, ha, rfl⟩, h⟩
      obtain ⟨bs, hbs, rfl⟩ := (ih _).mp h
      refine ⟨a :: bs, ⟨a, bs, ha, mapM_eq_ok.mp hbs, rfl⟩, ?_⟩
      rw [List.append_assoc, ← List.filter_append, List.singleton_append]
    · rintro ⟨-, ⟨a, bs, ha, hbs, rfl⟩, rfl⟩
      refine ⟨_, ⟨a, ha, rfl⟩, (ih _).mpr ⟨bs, mapM_eq_ok.mpr hbs, ?_⟩⟩
      rw [List.append_assoc, ← List.filter_append, List.singleton_append]

/-- What export makes of policies: their bindings merged, those that have any. -/
theorem assignmentsOf_eq_ok_iff {names : NameMap} {ps : List Policy} {A : List Assignment} :
    assignmentsOf names ps = .ok A ↔
      ∃ as, ps.mapM (assignmentOf names) = .ok as ∧ A = merged (as.filter (·.bindings ≠ [])) :=
  foldlM_addPolicy_eq_ok_iff []

theorem nodup_assignmentsOf {names : NameMap} {ps : List Policy} {as : List Assignment}
    (h : assignmentsOf names ps = .ok as) : (as.map (·.resourceId)).Nodup := by
  obtain ⟨bs, -, rfl⟩ := assignmentsOf_eq_ok_iff.mp h
  exact nodup_merged _

end PolicyDialects.Gcp
