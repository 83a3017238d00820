import PolicyDialects.Proofs.Store.Operations

/-!
# The order in which a store lists its entries

* `Store.createdId?`, `Store.deletedId?` — what an event does to the ids in use.
* `Store.creations` — the number of entries that a run creates.
* `Store.survivors` — the ids that a run created and did not delete, the oldest first.
* `Store.listing` — what a new store lists after a run.

Results:

* `survivors_events`: the survivors of a run are the ids of the store by age.
* `listing_eq_survivors_iff`: they are listed in this order as long as the ids' numbers
  have eight digits, and no longer.
-/

namespace PolicyDialects.Store

/-! ## Ids of a run -/

/-- The id that an event gives out. -/
def createdId? : Event → Option String
  | (.create _, .ok (.id id)) => some id
  | _ => none

/-- The id whose entry an event removes. -/
def deletedId? : Event → Option String
  | (.delete id, .ok _) => some id
  | _ => none

/-- The number of entries that are created. -/
def creations (es : List Event) : Nat := (es.filterMap createdId?).length

/-- The ids that were created and not deleted, in the order of their creation. -/
def survivors (es : List Event) : List String :=
  es.foldl (fun ids e => ids.filter (· ∉ deletedId? e) ++ (createdId? e).toList) []

section

variable (s : Store) (op : Operation)

theorem created_step :
    (op.program.runOn s).2.created =
      s.created + (createdId? (op, (op.program.runOn s).1)).toList.length := by
  cases op with
  | create body => rfl
  | get id => rw [runOn_get]; rfl
  | update id body =>
    rw [runOn_update]
    cases hupdate : s.update id body with
    | ok s' => exact created_update hupdate
    | error e => rfl
  | delete id =>
    rw [runOn_delete]
    cases hdelete : s.delete id with
    | ok s' => exact created_delete hdelete
    | error e => rfl
  | list => rfl
  | size => rfl

theorem idsByAge_step :
    (op.program.runOn s).2.idsByAge =
      s.idsByAge.filter (· ∉ deletedId? (op, (op.program.runOn s).1)) ++
        (createdId? (op, (op.program.runOn s).1)).toList := by
  have hsame : s.idsByAge.filter (· ∉ (none : Option String)) ++ [] = s.idsByAge := by
    rw [List.append_nil]
    exact List.filter_eq_self.mpr fun _ _ => by simp
  cases op with
  | create body =>
    rw [runOn_create, idsByAge_create]
    exact congrArg (· ++ _) (hsame.symm.trans (List.append_nil _))
  | get id => rw [runOn_get]; exact hsame.symm
  | update id body =>
    rw [runOn_update]
    cases hupdate : s.update id body with
    | ok s' => exact (idsByAge_update hupdate).trans hsame.symm
    | error e => exact hsame.symm
  | delete id =>
    rw [runOn_delete]
    cases hdelete : s.delete id with
    | ok s' =>
      rw [idsByAge_delete hdelete]
      refine Eq.trans (List.filter_congr fun key _ => ?_) (List.append_nil _).symm
      simp [deletedId?, eq_comm]
    | error e => exact hsame.symm
  | list => exact hsame.symm
  | size => exact hsame.symm

end

theorem creations_events (s : Store) (ops : List Operation) :
    (s.following ops).created = s.created + creations (s.events ops) := by
  induction ops generalizing s with
  | nil => rfl
  | cons op ops ih =>
    have hlength : ∀ (e : Event) (es : List Event),
        creations (e :: es) = (createdId? e).toList.length + creations es := by
      intro e es
      rw [creations, List.filterMap_cons]
      cases createdId? e with
      | none => exact (Nat.zero_add _).symm
      | some id => exact Nat.add_comm _ _
    rw [events, hlength, ← Nat.add_assoc, ← created_step]
    exact ih _

/-- The survivors of a run are the ids of the store by age. -/
theorem survivors_events (ops : List Operation) :
    survivors (events .empty ops) = (following .empty ops).idsByAge := by
  suffices hfold : ∀ s : Store, (s.events ops).foldl
      (fun ids e => ids.filter (· ∉ deletedId? e) ++ (createdId? e).toList) s.idsByAge =
        (s.following ops).idsByAge from hfold .empty
  intro s
  induction ops generalizing s with
  | nil => rfl
  | cons op ops ih =>
    rw [events, List.foldl_cons, ← idsByAge_step]
    exact ih _

/-! ## Listing -/

/-- What a new store lists after the operations. -/
def listing (ops : List Operation) : Except PolicyError Answer :=
  (Operation.list.program.runOn (following .empty ops)).1

theorem following_replicate (body : String) (n : Nat) :
    (following .empty (List.replicate n (.create body))).created = n ∧
      (following .empty (List.replicate n (.create body))).idsByAge =
        (following .empty (List.replicate n (.create body))).issued := by
  induction n with
  | zero => exact ⟨rfl, rfl⟩
  | succ n ih =>
    obtain ⟨hcreated, hids⟩ := ih
    have hlast : following .empty (List.replicate (n + 1) (.create body)) =
        ((following .empty (List.replicate n (.create body))).create body).2 := by
      rw [List.replicate_succ', following, List.foldl_append]
      rfl
    rw [hlast, idsByAge_create, issued_create, hids]
    exact ⟨congrArg (· + 1) hcreated, rfl⟩

theorem creations_replicate (body : String) (n : Nat) :
    creations (events .empty (List.replicate n (.create body))) = n := by
  have hcount := creations_events .empty (List.replicate n (.create body))
  rw [(following_replicate body n).1] at hcount
  exact (hcount.trans (Nat.zero_add _)).symm

/-- The survivors are listed in their order just when their texts are in this order. -/
theorem listing_eq_iff (ops : List Operation) :
    listing ops = .ok (.ids (survivors (events .empty ops))) ↔
      (following .empty ops).idsByAge.Pairwise (· ≤ ·) := by
  have hordered := following_keeps Ordered.kept .empty ops
  rw [← hordered.ids_eq_idsByAge_iff, survivors_events, listing, runOn_list]
  simp

/-- A store without deletions lists its ids in the order of their creation just when the
numbers have at most eight digits. -/
theorem listing_replicate_iff (body : String) (n : Nat) :
    listing (List.replicate n (.create body)) =
        .ok (.ids (survivors (events .empty (List.replicate n (.create body))))) ↔
      n < 10 ^ 8 := by
  obtain ⟨hcreated, hids⟩ := following_replicate body n
  rw [listing_eq_iff, hids, pairwise_issued_iff, hcreated]

/-- Runs with so many creations all list the surviving ids in the order of their
creation just when the numbers have at most eight digits. -/
theorem listing_eq_survivors_iff (n : Nat) :
    (∀ ops, creations (events .empty ops) = n →
      listing ops = .ok (.ids (survivors (events .empty ops)))) ↔ n < 100000000 := by
  constructor
  · intro hlist
    exact (listing_replicate_iff "" n).mp (hlist _ (creations_replicate "" n))
  · intro hshort ops hcount
    have hcreated : (following .empty ops).created = n := by
      rw [creations_events, hcount]
      exact Nat.zero_add n
    rw [listing_eq_iff]
    exact (pairwise_issued_iff.mpr (hcreated ▸ hshort)).sublist List.filter_sublist

/-- The id with number one hundred million is listed before ids of eight digits. -/
theorem listing_outOfOrder :
    creations (events .empty (List.replicate 100000000 (.create ""))) = 100000000 ∧
      listing (List.replicate 100000000 (.create "")) ≠
        .ok (.ids (survivors (events .empty (List.replicate 100000000 (.create ""))))) :=
  ⟨creations_replicate "" 100000000,
    fun h => absurd ((listing_replicate_iff "" 100000000).mp h) (by decide)⟩

end PolicyDialects.Store
