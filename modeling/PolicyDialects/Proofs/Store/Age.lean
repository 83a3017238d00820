import Mathlib.Data.List.Sort
import Mathlib.Data.String.Basic
import PolicyDialects.Proofs.Store.Entries

/-!
# The age of entries

A store numbers the ids that it gives out, and lists its entries in the order of the
ids' texts.

* `Store.issued` — the ids that a store has given out, the oldest first.
* `Store.idsByAge` — those of them that still have an entry.
* `Store.Ordered` — a sound store that lists ids which it gave out, in the order of
  their texts.

Results:

* `Ordered.kept`: each operation leaves such a store.
* `idsByAge_create`, `idsByAge_update`, `idsByAge_delete`: a new entry is the
  youngest, and the others keep their order.
* `idOf_lt_idOf`, `Ordered.ids_eq_idsByAge_iff`: texts and ages agree on eight digits.
-/

namespace PolicyDialects.Store

/-! ## Ids given out -/

/-- The ids given out so far, the oldest first. -/
def issued (s : Store) : List String := (List.range s.created).map fun n => idOf (n + 1)

/-- The ids of all entries, the oldest first. -/
def idsByAge (s : Store) : List String := s.issued.filter (· ∈ s.ids)

theorem mem_issued {s : Store} {id : String} :
    id ∈ s.issued ↔ ∃ n < s.created, idOf (n + 1) = id := by
  simp only [issued, List.mem_map, List.mem_range]

theorem idOf_not_mem_issued {s : Store} {n : Nat} (h : s.created < n) : idOf n ∉ s.issued := by
  intro hmem
  obtain ⟨k, hk, heq⟩ := mem_issued.mp hmem
  have hsame := idOf_injective heq
  omega

theorem nodup_issued (s : Store) : s.issued.Nodup :=
  List.nodup_range.map fun _ _ h => Nat.succ.inj (idOf_injective h)

theorem issued_create (s : Store) (body : String) :
    (s.create body).2.issued = s.issued ++ [idOf (s.created + 1)] := by
  change (List.range (s.created + 1)).map _ = _
  rw [List.range_succ, List.map_append]
  rfl

theorem issued_of_created {s s' : Store} (h : s'.created = s.created) : s'.issued = s.issued := by
  rw [issued, issued, h]

/-- The number of ids given out never falls. -/
theorem kept_created_le (c : Nat) : StoreM.KeptByWrites fun s => c ≤ s.created where
  create _ h _ := Nat.le_succ_of_le h
  update _ h _ _ _ hs := (created_update hs).symm ▸ h
  delete _ h _ _ hs := (created_delete hs).symm ▸ h

/-! ## Ids listed -/

theorem pairwise_insertSorted {entries : List (String × String)} (id body : String)
    (h : (entries.map Prod.fst).Pairwise (· ≤ ·)) :
    ((insertSorted id body entries).map Prod.fst).Pairwise (· ≤ ·) := by
  induction entries with
  | nil => exact List.pairwise_singleton _ _
  | cons e entries ih =>
    obtain ⟨hfirst, hrest⟩ := List.pairwise_cons.mp h
    rw [insertSorted]
    split
    · rename_i hlt
      refine List.pairwise_cons.mpr ⟨fun key hkey => ?_, h⟩
      rcases List.mem_cons.mp hkey with rfl | hkey
      · exact le_of_lt hlt
      · exact le_of_lt (lt_of_lt_of_le hlt (hfirst key hkey))
    · rename_i hle
      refine List.pairwise_cons.mpr ⟨fun key hkey => ?_, ih hrest⟩
      have hkeys := (insertSorted_perm id body entries).map Prod.fst
      rcases List.mem_cons.mp (hkeys.mem_iff.mp hkey) with rfl | hkey
      · exact le_of_not_gt hle
      · exact hfirst key hkey

/-- The listed ids were given out by the store, and are in the order of their texts. -/
structure Ordered (s : Store) : Prop extends Sound s where
  subset : s.ids ⊆ s.issued
  sorted : s.ids.Pairwise (· ≤ ·)

theorem Ordered.empty : Ordered empty :=
  { Sound.empty with subset := List.nil_subset _, sorted := .nil }

theorem Ordered.create {s : Store} (h : Ordered s) (body : String) : Ordered (s.create body).2 where
  toSound := h.toSound.create body
  subset := by
    rw [issued_create]
    intro id hid
    rcases List.mem_cons.mp ((ids_create_perm s body).mem_iff.mp hid) with rfl | hid
    · exact List.mem_append_right _ List.mem_cons_self
    · exact List.mem_append_left _ (h.subset hid)
  sorted := pairwise_insertSorted _ _ h.sorted

theorem Ordered.update {s s' : Store} (h : Ordered s) {id body : String}
    (hs : s.update id body = .ok s') : Ordered s' where
  toSound := h.toSound.update hs
  subset := by
    rw [ids_update hs, issued_of_created (created_update hs)]
    exact h.subset
  sorted := (ids_update hs).symm ▸ h.sorted

theorem Ordered.delete {s s' : Store} (h : Ordered s) {id : String} (hs : s.delete id = .ok s') :
    Ordered s' where
  toSound := h.toSound.delete hs
  subset := by
    rw [ids_delete hs, issued_of_created (created_delete hs)]
    exact fun _ hkey => h.subset (List.mem_of_mem_filter hkey)
  sorted := (ids_delete hs).symm ▸ h.sorted.filter _

theorem Ordered.kept : StoreM.KeptByWrites Ordered where
  create _ h := h.create
  update _ h _ _ _ := h.update
  delete _ h _ _ := h.delete

/-! ## Entries by age -/

theorem Ordered.mem_idsByAge {s : Store} (h : Ordered s) {id : String} :
    id ∈ s.idsByAge ↔ id ∈ s.ids := by
  rw [idsByAge, List.mem_filter, decide_eq_true_eq]
  exact and_iff_right_of_imp fun hid => h.subset hid

theorem Ordered.idsByAge_perm {s : Store} (h : Ordered s) : s.idsByAge.Perm s.ids :=
  (List.perm_ext_iff_of_nodup ((nodup_issued s).filter _) h.nodup).mpr fun _ => h.mem_idsByAge

/-- A new entry is the youngest. -/
theorem idsByAge_create (s : Store) (body : String) :
    (s.create body).2.idsByAge = s.idsByAge ++ [idOf (s.created + 1)] := by
  have hids := fun id => (ids_create_perm s body).mem_iff (a := id)
  rw [idsByAge, issued_create, List.filter_append]
  refine congrArg₂ (· ++ ·) (List.filter_congr fun id hid => ?_)
    (List.filter_eq_self.mpr fun id hid => ?_)
  · have hold : id ≠ idOf (s.created + 1) := fun heq =>
      idOf_not_mem_issued (Nat.lt_succ_self _) (heq ▸ hid)
    simp [hids, hold]
  · rw [List.mem_singleton] at hid
    simp [hids, hid]

/-- A new text is read behind the older ones. -/
theorem Sound.map_get_create {s : Store} (h : Sound s) (body : String) :
    (s.create body).2.idsByAge.map (s.create body).2.get = s.idsByAge.map s.get ++ [.ok body] := by
  rw [idsByAge_create, List.map_append]
  refine congrArg₂ (· ++ ·) (List.map_congr_left fun id hid => ?_) (congrArg (fun r => [r]) ?_)
  · have hold : id ≠ idOf (s.created + 1) := fun heq =>
      h.next_not_mem (heq ▸ of_decide_eq_true (List.mem_filter.mp hid).2)
    rw [get, get, h.find?_create, if_neg hold]
  · rw [get, h.find?_create, if_pos rfl]

theorem idsByAge_update {s s' : Store} {id body : String} (h : s.update id body = .ok s') :
    s'.idsByAge = s.idsByAge := by
  rw [idsByAge, idsByAge, ids_update h, issued_of_created (created_update h)]

theorem idsByAge_delete {s s' : Store} {id : String} (h : s.delete id = .ok s') :
    s'.idsByAge = s.idsByAge.filter (· ≠ id) := by
  rw [idsByAge, idsByAge, ids_delete h, issued_of_created (created_delete h),
    List.filter_filter]
  refine List.filter_congr fun key _ => ?_
  rw [← Bool.decide_and, decide_eq_decide, List.mem_filter, decide_eq_true_eq, and_comm]

/-! ## Texts and ages -/

/-- As long as the padding is wide enough, an older id comes first. -/
theorem idOf_lt_idOf {m n : Nat} (hmn : m < n) (hn : n < 10 ^ 8) : idOf m < idOf n := by
  rw [String.lt_iff_toList_lt, idOf, idOf]
  simp only [String.toList_append, String.toList_ofList]
  exact List.append_left_lt (Text.padded_lt_padded hmn hn)

/-- The texts of the ids are in the order of their ages as long as the padding is wide
enough, and no longer: the ninth digit makes an id smaller than those before it. -/
theorem pairwise_issued_iff {s : Store} : s.issued.Pairwise (· ≤ ·) ↔ s.created < 10 ^ 8 := by
  rw [issued, List.pairwise_map]
  constructor
  · intro hsorted
    by_contra hlong
    have hlast : 99999999 < (List.range s.created).length := by
      rw [List.length_range]
      omega
    have hle := List.pairwise_iff_getElem.mp hsorted 99999998 99999999 (by omega) hlast (by decide)
    rw [List.getElem_range, List.getElem_range] at hle
    exact absurd hle (by decide +kernel)
  · intro hshort
    refine List.pairwise_lt_range.imp_of_mem fun hm hn hlt => ?_
    have hn := List.mem_range.mp hn
    exact le_of_lt (idOf_lt_idOf (by omega) (by omega))

/-- The ids are listed by age just when their texts are in the order of their ages. -/
theorem Ordered.ids_eq_idsByAge_iff {s : Store} (h : Ordered s) :
    s.ids = s.idsByAge ↔ s.idsByAge.Pairwise (· ≤ ·) :=
  ⟨fun heq => heq ▸ h.sorted, fun hsorted => h.idsByAge_perm.symm.eq_of_pairwise'
    h.sorted hsorted⟩

end PolicyDialects.Store
