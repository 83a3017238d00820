import PolicyDialects.Json.Decode
import PolicyDialects.Proofs.Json.Reading

/-!
# Records are read back

A record is written with the members that have a value, and read by the names of
its fields.

* `Slot.ofOption` — the slot of a field that was written if there was a value.

Results:

* `fields?_partialRecord`: each field is found again.
* `get?_partialRecord`: nothing else is found.
* `list?_map`: a list is read back item by item.
* `Textual.partialRecord`, `Textual.map`: records and lists of texts are textual.
-/

namespace PolicyDialects.Json

/-! ## Fields -/

/-- What an object holds for a field that is written when there is a value. -/
def Slot.ofOption : Option Json → Slot
  | some value => .given value
  | none => .absent

/-- The members of a record with those values that there are. -/
def written (entries : List (String × Option Json)) : List (String × Json) :=
  entries.filterMap fun (key, value) => value.map fun v => (key, v)

theorem partialRecord_eq (entries : List (String × Option Json)) :
    partialRecord entries = record (written entries) := rfl

theorem written_some (members : List (String × Json)) :
    written (members.map fun (key, value) => (key, some value)) = members := by
  induction members with
  | nil => rfl
  | cons m members ih =>
    rw [written, List.map_cons, List.filterMap_cons]
    exact congrArg (m :: ·) ih

theorem mem_written {entries : List (String × Option Json)} {key : String} {value : Json} :
    (key, value) ∈ written entries ↔ (key, some value) ∈ entries := by
  simp [written, List.mem_filterMap]

/-- The keys of a record are among its fields, in their order. -/
theorem keys_written_sublist (entries : List (String × Option Json)) :
    ((written entries).map (·.1)).Sublist (entries.map (·.1)) := by
  induction entries with
  | nil => exact .slnil
  | cons e entries ih =>
    obtain ⟨key, _ | value⟩ := e
    · exact ih.cons key
    · exact ih.cons_cons key

theorem memberSlot_cons (key name : String) (value : Json) (members : List (Option String × Json)) :
    memberSlot ((some key, value) :: members) name =
      if key = name then .given value else memberSlot members name := by
  rw [memberSlot, List.find?_cons]
  by_cases h : key = name
  · simp [h]
  · have hother : (some key == some name) = false := by simpa using h
    simp only [hother, if_neg h, memberSlot]

theorem memberSlot_of_not_mem {name : String} {members : List (Option String × Json)}
    (h : some name ∉ members.map (·.1)) : memberSlot members name = .absent := by
  rw [memberSlot, List.find?_eq_none.mpr]
  · rfl
  · exact fun m hm hsame => h (List.mem_map.mpr ⟨m, hm, by simpa using hsame⟩)

/-- The members of an object that is written for a record. -/
theorem keys_record (members : List (String × Json)) :
    (members.map fun (key, value) => (some key, value)).map (·.1) =
      (members.map (·.1)).map some := by
  rw [List.map_map, List.map_map]
  rfl

/-- The slot of a field is what the record was written with. -/
theorem memberSlot_written {entries : List (String × Option Json)}
    (h : (entries.map (·.1)).Nodup) {e : String × Option Json} (he : e ∈ entries) :
    memberSlot ((written entries).map fun (key, value) => (some key, value)) e.1 =
      Slot.ofOption e.2 := by
  induction entries with
  | nil => cases he
  | cons first entries ih =>
    obtain ⟨hfirst, hkeys⟩ := List.nodup_cons.mp h
    have hrest : some first.1 ∉
        ((written entries).map fun (key, value) => (some key, value)).map (·.1) := by
      rw [keys_record]
      intro hmem
      obtain ⟨key, hkey, hsame⟩ := List.mem_map.mp hmem
      rw [Option.some.inj hsame] at hkey
      exact hfirst ((keys_written_sublist entries).subset hkey)
    rcases List.mem_cons.mp he with rfl | hmem
    · obtain ⟨key, _ | value⟩ := e
      · exact memberSlot_of_not_mem hrest
      · exact (memberSlot_cons key key value _).trans (if_pos rfl)
    · have hother : first.1 ≠ e.1 := fun hsame =>
        hfirst (List.mem_map.mpr ⟨e, hmem, hsame.symm⟩)
      obtain ⟨key, _ | value⟩ := first
      · exact ih hkeys hmem
      · exact (memberSlot_cons key e.1 value _).trans ((if_neg hother).trans (ih hkeys hmem))

/-- Each field of a record is found again. -/
theorem fields?_partialRecord {names : List String} {entries : List (String × Option Json)}
    (hnames : entries.map (·.1) = names) (h : names.Nodup) :
    (partialRecord entries).fields? names = some (entries.map fun e => Slot.ofOption e.2) := by
  subst hnames
  have hkeys : (((written entries).map (·.1)).map some).Nodup :=
    (h.sublist (keys_written_sublist entries)).map fun _ _ => Option.some.inj
  rw [partialRecord_eq, record, fields?]
  dsimp only
  rw [keys_record, if_pos, List.map_map]
  · exact congrArg some (List.map_congr_left fun e he => memberSlot_written h he)
  · refine ⟨by simp, List.all_eq_true.mpr fun name _ => ?_⟩
    simpa using List.nodup_iff_count_le_one.mp hkeys (some name)

theorem fields?_record {names : List String} {members : List (String × Json)}
    (hnames : members.map (·.1) = names) (h : names.Nodup) :
    (record members).fields? names = some (members.map fun m => .given m.2) := by
  have hfields : (partialRecord (members.map fun (key, value) => (key, some value))).fields? names =
      some ((members.map fun (key, value) => (key, some value)).map fun e => Slot.ofOption e.2) :=
    fields?_partialRecord (by rwa [List.map_map]) h
  rwa [partialRecord_eq, written_some, List.map_map] at hfields

/-- A record has no members but its fields. -/
theorem get?_partialRecord {entries : List (String × Option Json)} {key : String}
    (h : key ∉ entries.map (·.1)) : (partialRecord entries).get? key = none := by
  rw [partialRecord_eq, record, get?]
  dsimp only
  rw [List.find?_eq_none.mpr, Option.map_none]
  intro m hm hsame
  have hkey : some key ∈ ((written entries).map (·.1)).map some := by
    rw [← keys_record, ← eq_of_beq hsame]
    exact List.mem_map_of_mem hm
  obtain ⟨_, hmem, heq⟩ := List.mem_map.mp hkey
  rw [Option.some.inj heq] at hmem
  exact h ((keys_written_sublist entries).subset hmem)

/-- A field that may be missing is read as it was written, unless it was written as
null. -/
theorem Slot.optional_ofOption {α : Type} {encode : α → Json} {decode : Json → Option α}
    {value : Option α} (hnull : ∀ x ∈ value, encode x ≠ .null)
    (h : ∀ x ∈ value, decode (encode x) = some x) :
    (Slot.ofOption (value.map encode)).optional decode = some value := by
  cases value with
  | none => rfl
  | some x =>
    rw [Option.map_some, Slot.ofOption, Slot.optional, h x rfl]
    · rfl
    · exact hnull x rfl

theorem Slot.optional_str (value : Option String) :
    (Slot.ofOption (value.map .str)).optional text? = some value :=
  Slot.optional_ofOption (fun _ _ => Json.noConfusion) fun _ _ => rfl

/-! ## Lists -/

theorem list?_map {α : Type} {encode : α → Json} {decode : Json → Option α} {xs : List α}
    (h : ∀ x ∈ xs, decode (encode x) = some x) :
    list? decode (.array (xs.map encode)) = some xs := by
  rw [list?]
  induction xs with
  | nil => rfl
  | cons x xs ih =>
    obtain ⟨hx, hxs⟩ := List.forall_mem_cons.mp h
    rw [List.map_cons, List.mapM_cons, hx, ih hxs]
    rfl

theorem list?_strings (items : List String) : list? text? (strings items) = some items :=
  list?_map fun _ _ => rfl

/-! ## Texts of records -/

section

variable {d : Nat}

theorem Textual.fields {members : List (String × Json)} (hkeys : (members.map (·.1)).Nodup)
    (h : members.Forall fun m => Textual d m.2) : Textual (d + 1) (.record members) :=
  .record hkeys (List.forall_iff_forall_mem.mp h)

theorem Textual.partialRecord {entries : List (String × Option Json)}
    (hkeys : (entries.map (·.1)).Nodup) (h : entries.Forall fun e => ∀ j ∈ e.2, Textual d j) :
    Textual (d + 1) (.partialRecord entries) :=
  .record (hkeys.sublist (keys_written_sublist entries)) fun m hm =>
    List.forall_iff_forall_mem.mp h (m.1, some m.2) (mem_written.mp hm) m.2 rfl

theorem Textual.map {α : Type} {encode : α → Json} {xs : List α}
    (h : ∀ x ∈ xs, Textual d (encode x)) : Textual (d + 1) (.array (xs.map encode)) :=
  .list (List.forall_mem_map.mpr h)

theorem Textual.strings (items : List String) : Textual (d + 1) (.strings items) :=
  .map fun s _ => .text d s

theorem Textual.of_mem_some {j : Json} (h : Textual d j) : ∀ i ∈ some j, Textual d i :=
  fun _ hi => Option.some.inj hi ▸ h

theorem Textual.of_mem_map {α : Type} {encode : α → Json} {value : Option α}
    (h : ∀ x, Textual d (encode x)) : ∀ i ∈ value.map encode, Textual d i := by
  intro i hi
  obtain ⟨x, -, rfl⟩ := Option.map_eq_some_iff.mp hi
  exact h x

end

end PolicyDialects.Json
