import Mathlib.Data.Finmap
import PolicyDialects.Proofs.Store.Age

/-!
# A store as a map with fresh keys

* `Store.Operation`, `Store.Answer` — what is asked of a store, and what it says.
* `Store.events`, `Store.following` — operations in turn: each with its answer, and the
  store that they leave.
* `FreshMap` — a finite map that gives out its keys, with its rules `FreshMap.Step`.
* `Store.view` — the map that a store holds.

Results:

* `Ordered.step_view`: an operation on a store is a step of the map.
* `runs_view_following`: so is every run on a new store.
-/

namespace PolicyDialects

namespace Store

/-! ## Operations -/

/-- What is asked of a store. -/
inductive Operation where
  | create (body : String)
  | get (id : String)
  | update (id body : String)
  | delete (id : String)
  | list
  | size

/-- What a store says. -/
inductive Answer where
  | id (id : String)
  | body (body : String)
  | done
  | ids (ids : List String)
  | size (n : Nat)

/-- The program of an operation. -/
def Operation.program : Operation → StoreM Answer
  | .create body => do return .id (← StoreM.create body)
  | .get id => do return .body (← StoreM.fetch id)
  | .update id body => do StoreM.update id body; return .done
  | .delete id => do StoreM.delete id; return .done
  | .list => do return .ids (← StoreM.ids)
  | .size => do return .size (← MonadState.get).size

/-- An operation with its answer. -/
abbrev Event := Operation × Except PolicyError Answer

/-- The operations with their answers, one after the other. -/
def events (s : Store) : List Operation → List Event
  | [] => []
  | op :: ops => (op, (op.program.runOn s).1) :: events (op.program.runOn s).2 ops

/-- The store after the operations. -/
def following (s : Store) (ops : List Operation) : Store :=
  ops.foldl (fun s op => (op.program.runOn s).2) s

section

variable (s : Store)

theorem runOn_create (body : String) :
    (Operation.create body).program.runOn s =
      (.ok (.id (idOf (s.created + 1))), (s.create body).2) := rfl

theorem runOn_get (id : String) :
    (Operation.get id).program.runOn s = ((s.get id).map .body, s) := by
  rw [Operation.program, StoreM.runOn_bind, StoreM.runOn_fetch]
  cases s.get id <;> rfl

theorem runOn_update (id body : String) :
    (Operation.update id body).program.runOn s = match s.update id body with
      | .ok s' => (.ok .done, s')
      | .error e => (.error e, s) := by
  rw [Operation.program, StoreM.runOn_bind, StoreM.runOn_update]
  cases s.update id body <;> rfl

theorem runOn_delete (id : String) :
    (Operation.delete id).program.runOn s = match s.delete id with
      | .ok s' => (.ok .done, s')
      | .error e => (.error e, s) := by
  rw [Operation.program, StoreM.runOn_bind, StoreM.runOn_delete]
  cases s.delete id <;> rfl

theorem runOn_list : Operation.list.program.runOn s = (.ok (.ids s.ids), s) := rfl

theorem runOn_size : Operation.size.program.runOn s = (.ok (.size s.size), s) := rfl

end

/-- What the operations keep, a run keeps. -/
theorem following_keeps {I : Store → Prop} (h : StoreM.KeptByWrites I) {s : Store} (hs : I s)
    (ops : List Operation) : I (s.following ops) := by
  induction ops generalizing s with
  | nil => exact hs
  | cons op ops ih =>
    refine ih ?_
    have hkeeps : StoreM.Keeps I op.program := by
      cases op with
      | create body => exact (h.keeps_create body).bind fun _ => .pure _
      | get id => exact (StoreM.Keeps.fetch id).bind fun _ => .pure _
      | update id body => exact (h.keeps_update id body).bind fun _ => .pure _
      | delete id => exact (h.keeps_delete id).bind fun _ => .pure _
      | list => exact fun _ hs => hs
      | size => exact fun _ hs => hs
    exact hkeeps s hs

end Store

/-! ## Maps with fresh keys -/

/-- A finite map that gives out its keys. -/
structure FreshMap where
  /-- The keys that were given out. -/
  issued : Finset String
  /-- The texts that are held. -/
  held : Finmap fun _ : String => String

namespace FreshMap

/-- A map that has given out no key. -/
def empty : FreshMap := ⟨∅, ∅⟩

open Store (notFound)

/-- What a map says to an operation, and what it is afterwards. A key is new when it is
given out; an operation on a key without a text fails and changes nothing. -/
inductive Step (m : FreshMap) : Store.Event → FreshMap → Prop
  | create {body id : String} (fresh : id ∉ m.issued) :
      Step m (.create body, .ok (.id id)) ⟨insert id m.issued, m.held.insert id body⟩
  | get {id body : String} (held : m.held.lookup id = some body) :
      Step m (.get id, .ok (.body body)) m
  | update {id body : String} (held : id ∈ m.held) :
      Step m (.update id body, .ok .done) ⟨m.issued, m.held.insert id body⟩
  | delete {id : String} (held : id ∈ m.held) :
      Step m (.delete id, .ok .done) ⟨m.issued, m.held.erase id⟩
  | list {ids : List String} (once : ids.Nodup) (all : ids.toFinset = m.held.keys) :
      Step m (.list, .ok (.ids ids)) m
  | size : Step m (.size, .ok (.size m.held.keys.card)) m
  | getMissing {id : String} (missing : id ∉ m.held) :
      Step m (.get id, .error (notFound id)) m
  | updateMissing {id body : String} (missing : id ∉ m.held) :
      Step m (.update id body, .error (notFound id)) m
  | deleteMissing {id : String} (missing : id ∉ m.held) :
      Step m (.delete id, .error (notFound id)) m

/-- Steps in turn. -/
inductive Runs : FreshMap → List Store.Event → FreshMap → Prop
  | nil {m : FreshMap} : Runs m [] m
  | cons {m m₁ m₂ : FreshMap} {e : Store.Event} {es : List Store.Event} :
      Step m e m₁ → Runs m₁ es m₂ → Runs m (e :: es) m₂

end FreshMap

namespace Store

/-! ## The map of a store -/

/-- The map that a store holds. -/
def view (s : Store) : FreshMap where
  issued := s.issued.toFinset
  held := (s.entries.map Prod.toSigma).toFinmap

section

variable {s s' : Store}

theorem lookup_view (s : Store) (id : String) : s.view.held.lookup id = s.find? id := by
  rw [view, Finmap.dlookup_list_toFinmap, find?]
  induction s.entries with
  | nil => rfl
  | cons e entries ih =>
    by_cases he : e.1 = id
    · subst he
      rw [List.find?_cons_of_pos (by simp)]
      exact List.dlookup_cons_eq _ _ _
    · rw [List.find?_cons_of_neg (by simpa using he), ← ih]
      exact List.dlookup_cons_ne _ _ (Ne.symm he)

theorem mem_view {id : String} : id ∈ s.view.held ↔ id ∈ s.ids := by
  rw [← Finmap.lookup_isSome, lookup_view, mem_ids_iff]

theorem keys_view (s : Store) : s.view.held.keys = s.ids.toFinset := by
  ext id
  rw [Finmap.mem_keys, mem_view, List.mem_toFinset]

/-- A map is known by its keys and by what it finds. -/
theorem view_eq {m : FreshMap} (hissued : s.issued.toFinset = m.issued)
    (hheld : ∀ id, s.find? id = m.held.lookup id) : s.view = m := by
  obtain ⟨issued, held⟩ := m
  obtain rfl : s.view.held = held :=
    Finmap.ext_lookup fun id => (lookup_view s id).trans (hheld id)
  obtain rfl := hissued
  rfl

theorem Sound.view_create (h : Sound s) (body : String) :
    (s.create body).2.view =
      ⟨insert (idOf (s.created + 1)) s.view.issued,
        s.view.held.insert (idOf (s.created + 1)) body⟩ := by
  refine view_eq ?_ fun id => ?_
  · rw [issued_create, List.toFinset_append, Finset.union_comm]
    rfl
  · rw [h.find?_create, ← lookup_view]
    split
    · rename_i hid
      rw [hid, Finmap.lookup_insert]
    · rename_i hid
      rw [Finmap.lookup_insert_of_ne _ hid]

theorem view_update {id body : String} (hs : s.update id body = .ok s') :
    s'.view = ⟨s.view.issued, s.view.held.insert id body⟩ := by
  refine view_eq ?_ fun key => ?_
  · rw [issued_of_created (created_update hs)]
    rfl
  · rw [find?_update hs, ← lookup_view]
    split
    · rename_i hkey
      rw [hkey, Finmap.lookup_insert]
    · rename_i hkey
      rw [Finmap.lookup_insert_of_ne _ hkey]

theorem view_delete {id : String} (hs : s.delete id = .ok s') :
    s'.view = ⟨s.view.issued, s.view.held.erase id⟩ := by
  refine view_eq ?_ fun key => ?_
  · rw [issued_of_created (created_delete hs)]
    rfl
  · rw [find?_delete hs, ← lookup_view]
    split
    · rename_i hkey
      rw [hkey, Finmap.lookup_erase]
    · rename_i hkey
      rw [Finmap.lookup_erase_ne hkey]

end

/-! ## Runs -/

/-- An operation on a store is a step of its map. -/
theorem Sound.step_view {s : Store} (h : Sound s) (op : Operation) :
    FreshMap.Step s.view (op, (op.program.runOn s).1) (op.program.runOn s).2.view := by
  cases op with
  | create body =>
    rw [runOn_create, h.view_create]
    exact .create fun hmem =>
      idOf_not_mem_issued (Nat.lt_succ_self _) (List.mem_toFinset.mp hmem)
  | get id =>
    rw [runOn_get, Store.get]
    cases hfind : s.find? id with
    | some body => exact .get ((lookup_view s id).trans hfind)
    | none => exact .getMissing fun hmem => find?_eq_none_iff.mp hfind (mem_view.mp hmem)
  | update id body =>
    rw [runOn_update]
    cases hupdate : s.update id body with
    | ok s' =>
      rw [view_update hupdate]
      exact .update (mem_view.mpr (eq_of_update hupdate).1)
    | error e =>
      obtain ⟨hid, rfl⟩ := eq_of_update_error hupdate
      exact .updateMissing fun hmem => hid (mem_view.mp hmem)
  | delete id =>
    rw [runOn_delete]
    cases hdelete : s.delete id with
    | ok s' =>
      rw [view_delete hdelete]
      exact .delete (mem_view.mpr (eq_of_delete hdelete).1)
    | error e =>
      obtain ⟨hid, rfl⟩ := eq_of_delete_error hdelete
      exact .deleteMissing fun hmem => hid (mem_view.mp hmem)
  | list => exact .list h.nodup (keys_view s).symm
  | size =>
    have hsize : s.size = s.view.held.keys.card := by
      rw [keys_view, List.toFinset_card_of_nodup h.nodup, ids, List.length_map, size]
    rw [runOn_size, hsize]
    exact .size

/-- A run on a new store is a run of a map with fresh keys. -/
theorem runs_view_following (ops : List Operation) :
    FreshMap.Runs .empty (events .empty ops) (following .empty ops).view := by
  suffices hruns : ∀ s : Store, Sound s → FreshMap.Runs s.view (s.events ops) (s.following ops).view
    from hruns .empty .empty
  intro s hs
  induction ops generalizing s with
  | nil => exact .nil
  | cons op ops ih =>
    exact .cons (hs.step_view op) (ih _ (following_keeps Sound.kept hs [op]))

end Store

end PolicyDialects
