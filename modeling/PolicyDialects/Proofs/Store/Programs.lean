import PolicyDialects.Proofs.Outcome
import PolicyDialects.Store

/-!
# Programs over a store, run

* `Keeps` — a program leaves a property of stores intact, also when it fails.
* `KeptByWrites` — each operation that changes a store leaves a property intact.

Results:

* `runOn_bind`, `runOn_bind_of_ok`: programs in turn.
* `runOn_mapM`: a traversal that only reads.
* `Keeps.bind`, `Keeps.mapM`, `Keeps.forM`, `Keeps.foldlM`: what each step keeps,
  a run keeps.
-/

namespace PolicyDialects.StoreM

variable {α β γ : Type} {s s₁ s₂ : Store}

/-! ## Steps -/

theorem exists_runOn_eq {p : StoreM α} {r : Except PolicyError α} (h : (p.runOn s).1 = r) :
    ∃ s', p.runOn s = (r, s') :=
  ⟨(p.runOn s).2, h ▸ rfl⟩

theorem runOn_bind (p : StoreM α) (k : α → StoreM β) (s : Store) :
    (p >>= k).runOn s = match p.runOn s with
      | (.ok x, s₁) => (k x).runOn s₁
      | (.error e, s₁) => (.error e, s₁) := by
  change ((p >>= k : StoreM β) s) = match p s with
      | (.ok x, s₁) => (k x) s₁
      | (.error e, s₁) => (.error e, s₁)
  change (match p s with | (r, s₁) => ExceptT.bindCont k r s₁) = _
  rcases p s with ⟨_ | _, s₁⟩ <;> rfl

theorem runOn_bind_of_ok {p : StoreM α} {x : α} (h : p.runOn s = (.ok x, s₁))
    (k : α → StoreM β) : (p >>= k).runOn s = (k x).runOn s₁ := by
  rw [runOn_bind, h]

theorem runOn_bind_of_error {p : StoreM α} {e : PolicyError} (h : p.runOn s = (.error e, s₁))
    (k : α → StoreM β) : (p >>= k).runOn s = (.error e, s₁) := by
  rw [runOn_bind, h]

theorem runOn_ofExcept (r : Except PolicyError α) (s : Store) :
    (MonadExcept.ofExcept r : StoreM α).runOn s = (r, s) := by
  cases r <;> rfl

theorem runOn_ids (s : Store) : ids.runOn s = (.ok s.ids, s) := rfl

theorem runOn_fetch (id : String) (s : Store) : (fetch id).runOn s = (s.get id, s) :=
  runOn_ofExcept (s.get id) s

theorem runOn_update (id body : String) (s : Store) :
    (update id body).runOn s = match s.update id body with
      | .ok s₁ => (.ok (), s₁)
      | .error e => (.error e, s) := by
  have hget : (update id body).runOn s =
      ((MonadExcept.ofExcept (s.update id body) : StoreM Store) >>= set).runOn s := rfl
  rw [hget, runOn_bind, runOn_ofExcept]
  cases s.update id body <;> rfl

theorem runOn_delete (id : String) (s : Store) :
    (delete id).runOn s = match s.delete id with
      | .ok s₁ => (.ok (), s₁)
      | .error e => (.error e, s) := by
  have hget : (delete id).runOn s =
      ((MonadExcept.ofExcept (s.delete id) : StoreM Store) >>= set).runOn s := rfl
  rw [hget, runOn_bind, runOn_ofExcept]
  cases s.delete id <;> rfl

/-! ## Traversals -/

/-- Programs that only read, in turn. -/
theorem runOn_mapM {f : α → StoreM β} {g : α → Except PolicyError β} {xs : List α}
    (h : ∀ x ∈ xs, (f x).runOn s = (g x, s)) : (xs.mapM f).runOn s = (xs.mapM g, s) := by
  induction xs with
  | nil => rfl
  | cons x xs ih =>
    obtain ⟨hx, hxs⟩ := List.forall_mem_cons.mp h
    rw [List.mapM_cons, List.mapM_cons, runOn_bind, hx]
    cases g x with
    | error e => rfl
    | ok y =>
      dsimp only
      rw [runOn_bind, ih hxs]
      cases xs.mapM g <;> rfl

/-! ## What is kept -/

/-- The program leaves the property intact, also when it fails. -/
def Keeps (I : Store → Prop) (p : StoreM α) : Prop := ∀ s, I s → I (p.runOn s).2

section

variable {I : Store → Prop}

theorem Keeps.pure (x : α) : Keeps I (pure x : StoreM α) := fun _ h => h

theorem Keeps.ofExcept (r : Except PolicyError α) : Keeps I (MonadExcept.ofExcept r : StoreM α) :=
  fun s h => (runOn_ofExcept r s).symm ▸ h

theorem Keeps.bind {p : StoreM α} {k : α → StoreM β} (hp : Keeps I p) (hk : ∀ x, Keeps I (k x)) :
    Keeps I (p >>= k) := by
  intro s h
  have hs := hp s h
  rw [runOn_bind]
  generalize p.runOn s = r at hs ⊢
  obtain ⟨_ | x, s₁⟩ := r
  · exact hs
  · exact hk x s₁ hs

theorem Keeps.ids : Keeps I ids := fun _ h => h

theorem Keeps.fetch (id : String) : Keeps I (fetch id) := fun s h => (runOn_fetch id s).symm ▸ h

theorem Keeps.mapM {f : α → StoreM β} {xs : List α} (h : ∀ x, Keeps I (f x)) :
    Keeps I (xs.mapM f) := by
  induction xs with
  | nil => exact .pure []
  | cons x xs ih =>
    rw [List.mapM_cons]
    exact (h x).bind fun y => ih.bind fun ys => .pure (y :: ys)

theorem Keeps.forM {f : α → StoreM Unit} {xs : List α} (h : ∀ x, Keeps I (f x)) :
    Keeps I (xs.forM f) := by
  induction xs with
  | nil => exact .pure ()
  | cons x xs ih => exact (h x).bind fun _ => ih

theorem Keeps.foldlM {f : β → α → StoreM β} {xs : List α} (h : ∀ y x, Keeps I (f y x)) (y : β) :
    Keeps I (xs.foldlM f y) := by
  induction xs generalizing y with
  | nil => exact .pure y
  | cons x xs ih =>
    rw [List.foldlM_cons]
    exact (h y x).bind ih

end

/-- Creating, updating and deleting an entry leave the property intact. -/
structure KeptByWrites (I : Store → Prop) : Prop where
  create : ∀ s, I s → ∀ body, I (s.create body).2
  update : ∀ s, I s → ∀ id body s', s.update id body = .ok s' → I s'
  delete : ∀ s, I s → ∀ id s', s.delete id = .ok s' → I s'

section

variable {I : Store → Prop}

theorem KeptByWrites.keeps_create (h : KeptByWrites I) (body : String) :
    Keeps I (StoreM.create body) :=
  fun s hs => h.create s hs body

theorem KeptByWrites.keeps_update (h : KeptByWrites I) (id body : String) :
    Keeps I (StoreM.update id body) := by
  intro s hs
  rw [runOn_update]
  cases hupdate : s.update id body with
  | error e => exact hs
  | ok s' => exact h.update s hs id body s' hupdate

theorem KeptByWrites.keeps_delete (h : KeptByWrites I) (id : String) :
    Keeps I (StoreM.delete id) := by
  intro s hs
  rw [runOn_delete]
  cases hdelete : s.delete id with
  | error e => exact hs
  | ok s' => exact h.delete s hs id s' hdelete

end

end PolicyDialects.StoreM
