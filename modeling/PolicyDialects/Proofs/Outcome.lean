import Mathlib.Data.List.Forall2

/-!
# What holds of results

Readers and converters either return something or fail. `Yields` says what
holds of all that they return, and nothing of their failures.

Results:

* `Yields.bind`, `Yields.map`: computations in turn.
* `bind_eq_ok`, `map_eq_ok`, `mapM_eq_ok`: the parts of a computation that
  returned.
* `mapM_settles`, `mapM_flatten_eq_ok`: traversals in turn.
* `mapM_flatMap_eq_ok`: a traversal of lists put together.
-/

namespace PolicyDialects

/-- Whatever is returned has the property. -/
def Yields {ε α : Type} (property : α → Prop) (r : Except ε α) : Prop :=
  ∀ x, r = .ok x → property x

section

variable {ε α β : Type} {p : α → Prop} {q : β → Prop} {r : Except ε α}

theorem Yields.ok {x : α} (h : p x) : Yields p (.ok x : Except ε α) := by
  rintro y hy
  rw [← Except.ok.inj hy]
  exact h

theorem Yields.error (e : ε) : Yields p (.error e) := by
  rintro y hy
  cases hy

theorem Yields.of_eq_ok {x : α} (h : r = .ok x) (hx : p x) : Yields p r := by
  rw [h]
  exact .ok hx

instance [DecidablePred p] : Decidable (Yields p r) :=
  match r with
  | .error e => isTrue (.error e)
  | .ok x => decidable_of_iff (p x) ⟨.ok, fun h => h x rfl⟩

theorem Yields.bind {k : α → Except ε β} (h : Yields p r) (hk : ∀ x, p x → Yields q (k x)) :
    Yields q (r >>= k) := by
  cases r with
  | error e => exact .error e
  | ok x => exact hk x (h x rfl)

theorem Yields.map {f : α → β} (h : Yields p r) (hf : ∀ x, p x → q (f x)) :
    Yields q (r.map f) := by
  cases r with
  | error e => exact .error e
  | ok x => exact .ok (hf x (h x rfl))

theorem Yields.imp {p' : α → Prop} (h : Yields p r) (himp : ∀ x, p x → p' x) : Yields p' r :=
  fun x hx => himp x (h x hx)

theorem ok_eq_ok {x y : α} : (.ok x : Except ε α) = .ok y ↔ y = x :=
  ⟨fun h => (Except.ok.inj h).symm, fun h => congrArg Except.ok h.symm⟩

theorem bind_eq_ok {k : α → Except ε β} {y : β} :
    r >>= k = .ok y ↔ ∃ x, r = .ok x ∧ k x = .ok y := by
  cases r with
  | error e => simp [Bind.bind, Except.bind]
  | ok x => simp [Bind.bind, Except.bind]

theorem ok_ne_error {x : α} {e : ε} : (.ok x : Except ε α) ≠ .error e := by
  rintro ⟨⟩

theorem error_ne_error {e e' : ε} (h : e ≠ e') : (.error e : Except ε α) ≠ .error e' :=
  fun heq => h (Except.error.inj heq)

theorem bind_ne_error {k : α → Except ε β} {e : ε} (hr : r ≠ .error e)
    (hk : ∀ x, k x ≠ .error e) : r >>= k ≠ .error e := by
  cases r with
  | error e' => exact fun h => hr (congrArg _ (Except.error.inj h))
  | ok x => exact hk x

theorem map_eq_ok {f : α → β} {y : β} : r.map f = .ok y ↔ ∃ x, r = .ok x ∧ f x = y := by
  cases r with
  | error e => simp [Except.map]
  | ok x => simp [Except.map]

theorem map_eq_error {f : α → β} {e : ε} : r.map f = .error e ↔ r = .error e := by
  cases r with
  | error e' => simp [Except.map]
  | ok x => simp [Except.map]

theorem mapM_eq_ok {f : α → Except ε β} {xs : List α} {ys : List β} :
    xs.mapM f = .ok ys ↔ List.Forall₂ (fun x y => f x = .ok y) xs ys := by
  induction xs generalizing ys with
  | nil =>
    rw [List.mapM_nil, List.forall₂_nil_left_iff]
    exact ok_eq_ok
  | cons x xs ih =>
    rw [List.mapM_cons, bind_eq_ok, List.forall₂_cons_left_iff]
    refine exists_congr fun y => ?_
    constructor
    · rintro ⟨hy, h⟩
      obtain ⟨ys', hys, h⟩ := bind_eq_ok.mp h
      exact ⟨ys', hy, ih.mp hys, (Except.ok.inj h).symm⟩
    · rintro ⟨ys', hy, hys, rfl⟩
      exact ⟨hy, bind_eq_ok.mpr ⟨ys', ih.mpr hys, rfl⟩⟩

theorem exists_of_mem_mapM {f : α → Except ε β} {xs : List α} {ys : List β}
    (h : xs.mapM f = .ok ys) {y : β} (hy : y ∈ ys) : ∃ x ∈ xs, f x = .ok y := by
  induction mapM_eq_ok.mp h with
  | nil => cases hy
  | cons hx hxs ih =>
    rcases List.mem_cons.mp hy with rfl | hy
    · exact ⟨_, List.mem_cons_self, hx⟩
    · obtain ⟨x, hmem, hx⟩ := ih (mapM_eq_ok.mpr hxs) hy
      exact ⟨x, List.mem_cons_of_mem _ hmem, hx⟩

theorem exists_mapM_eq_ok {f : α → Except ε β} {xs : List α} (h : ∀ x ∈ xs, ∃ y, f x = .ok y) :
    ∃ ys, xs.mapM f = .ok ys := by
  induction xs with
  | nil => exact ⟨[], rfl⟩
  | cons x xs ih =>
    obtain ⟨⟨y, hy⟩, hxs⟩ := List.forall_mem_cons.mp h
    obtain ⟨ys, hys⟩ := ih hxs
    exact ⟨y :: ys, mapM_eq_ok.mpr (.cons hy (mapM_eq_ok.mp hys))⟩

theorem forall_of_mapM_eq_ok {f : α → Except ε β} {xs : List α} {ys : List β}
    (h : xs.mapM f = .ok ys) : ∀ x ∈ xs, ∃ y, f x = .ok y := by
  induction mapM_eq_ok.mp h with
  | nil => exact List.forall_mem_nil _
  | cons hx hxs ih => exact List.forall_mem_cons.mpr ⟨⟨_, hx⟩, ih (mapM_eq_ok.mpr hxs)⟩

theorem mapM_append_eq_ok {f : α → Except ε β} {xs xs' : List α} {ys ys' : List β}
    (h : xs.mapM f = .ok ys) (h' : xs'.mapM f = .ok ys') :
    (xs ++ xs').mapM f = .ok (ys ++ ys') :=
  mapM_eq_ok.mpr (List.rel_append (mapM_eq_ok.mp h) (mapM_eq_ok.mp h'))

/-- Traversals that agree place by place. -/
theorem mapM_eq_mapM {γ : Type} {f : α → Except ε γ} {g : β → Except ε γ} {xs : List α}
    {ys : List β} (h : List.Forall₂ (fun x y => f x = g y) xs ys) : xs.mapM f = ys.mapM g := by
  induction h with
  | nil => rfl
  | cons hxy _ ih => rw [List.mapM_cons, List.mapM_cons, hxy, ih]

/-- A traversal with a last step that cannot fail. -/
theorem mapM_map_eq_ok {γ : Type} {f : α → Except ε β} {g : β → γ} {xs : List α}
    {zs : List γ} :
    xs.mapM (fun x => (f x).map g) = .ok zs ↔ ∃ ys, xs.mapM f = .ok ys ∧ zs = ys.map g := by
  simp only [mapM_eq_ok, map_eq_ok]
  constructor
  · intro h
    induction h with
    | nil => exact ⟨[], .nil, rfl⟩
    | cons hx _ ih =>
      obtain ⟨y, hy, rfl⟩ := hx
      obtain ⟨ys, hys, rfl⟩ := ih
      exact ⟨y :: ys, .cons hy hys, rfl⟩
  · rintro ⟨ys, hys, rfl⟩
    exact List.forall₂_map_right_iff.mpr (hys.imp fun x y hxy => ⟨y, hxy, rfl⟩)

/-- A list made of lists, each of which is traversed for something of its own. -/
theorem mapM_flatMap_eq_ok {γ δ : Type} {f : β → Except ε γ} {k : α → List β}
    {g : α → Except ε δ} {l : δ → List γ}
    (h : ∀ x zs, (k x).mapM f = .ok zs ↔ ∃ d, g x = .ok d ∧ zs = l d) {xs : List α}
    {zs : List γ} :
    (xs.flatMap k).mapM f = .ok zs ↔ ∃ ds, xs.mapM g = .ok ds ∧ zs = ds.flatMap l := by
  induction xs generalizing zs with
  | nil => simp [pure, Except.pure, eq_comm]
  | cons x xs ih =>
    rw [List.flatMap_cons, List.mapM_append, bind_eq_ok]
    constructor
    · rintro ⟨ys, hys, hrest⟩
      obtain ⟨ys', hys', hzs⟩ := bind_eq_ok.mp hrest
      obtain ⟨d, hd, rfl⟩ := (h x ys).mp hys
      obtain ⟨ds, hds, rfl⟩ := ih.mp hys'
      refine ⟨d :: ds, mapM_eq_ok.mpr (.cons hd (mapM_eq_ok.mp hds)), ?_⟩
      exact (Except.ok.inj hzs).symm
    · rintro ⟨_, hds, rfl⟩
      obtain ⟨d, ds, hd, hrest, rfl⟩ := List.forall₂_cons_left_iff.mp (mapM_eq_ok.mp hds)
      refine ⟨l d, (h x _).mpr ⟨d, hd, rfl⟩, bind_eq_ok.mpr ⟨ds.flatMap l, ?_, rfl⟩⟩
      exact ih.mpr ⟨ds, mapM_eq_ok.mpr hrest, rfl⟩

/-- What does not change any more when it is mapped again, does not in a list
either. -/
theorem mapM_settles {f : α → Except ε α} (h : ∀ x y z, f x = .ok y → f y = .ok z → z = y)
    {xs ys zs : List α} (hys : xs.mapM f = .ok ys) (hzs : ys.mapM f = .ok zs) : zs = ys := by
  induction mapM_eq_ok.mp hys generalizing zs with
  | nil => exact (Except.ok.inj hzs).symm
  | cons hx hxs ih =>
    obtain ⟨z, zs, hz, hrest, rfl⟩ := List.forall₂_cons_left_iff.mp (mapM_eq_ok.mp hzs)
    rw [h _ _ _ hx hz, ih (mapM_eq_ok.mpr hxs) (mapM_eq_ok.mpr hrest)]

/-- Two traversals in turn, of which the second makes a single result of each
that the first has made. -/
theorem mapM_flatten_eq_ok {γ : Type} {f : α → Except ε β} {g : β → Except ε (List γ)}
    {k : α → Except ε γ} {xs : List α} {ys : List β} {zss : List (List γ)}
    (hys : xs.mapM f = .ok ys) (hzss : ys.mapM g = .ok zss)
    (h : ∀ x ∈ xs, ∀ y zs, f x = .ok y → g y = .ok zs → ∃ z, zs = [z] ∧ k x = .ok z) :
    xs.mapM k = .ok zss.flatten := by
  induction mapM_eq_ok.mp hys generalizing zss with
  | nil =>
    cases hzss
    rfl
  | cons hx hxs ih =>
    obtain ⟨zs, zss, hz, hrest, rfl⟩ := List.forall₂_cons_left_iff.mp (mapM_eq_ok.mp hzss)
    obtain ⟨hhead, htail⟩ := List.forall_mem_cons.mp h
    obtain ⟨z, rfl, hk⟩ := hhead _ _ hx hz
    exact mapM_append_eq_ok (mapM_eq_ok.mpr (.cons hk .nil))
      (ih (mapM_eq_ok.mpr hxs) (mapM_eq_ok.mpr hrest) htail)

/-- Two conversions that are inverse to each other on what a list holds, the
first of them making a list of one. -/
theorem exists_mapM_flatten_eq_ok {f : α → Except ε (List β)} {g : β → Except ε α} {xs : List α}
    (h : ∀ x ∈ xs, ∃ y, f x = .ok [y] ∧ g y = .ok x) :
    ∃ yss, xs.mapM f = .ok yss ∧ yss.flatten.mapM g = .ok xs := by
  induction xs with
  | nil => exact ⟨[], rfl, rfl⟩
  | cons x xs ih =>
    obtain ⟨⟨y, hy, hx⟩, hxs⟩ := List.forall_mem_cons.mp h
    obtain ⟨yss, hyss, hback⟩ := ih hxs
    exact ⟨[y] :: yss, mapM_eq_ok.mpr (.cons hy (mapM_eq_ok.mp hyss)),
      mapM_append_eq_ok (mapM_eq_ok.mpr (.cons hx .nil)) hback⟩

end

end PolicyDialects
