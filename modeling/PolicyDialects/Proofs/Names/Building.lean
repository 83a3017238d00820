import Mathlib.Data.List.Nodup
import PolicyDialects.Names
import PolicyDialects.Proofs.Outcome

/-!
# Building a name map

A map is built entry by entry, and refused at the first name that is taken. Once
it is built, the order of its entries does not matter.

* `NamePair.Clashes` — two entries that share a name.
* `NameMap.RenamesLike` — maps that cannot be told apart.

Results:

* `ofPairs_eq_ok_iff`: the map that is built has the entries that were given.
* `exists_ofPairs_iff`: it is built exactly if no entries clash.
* `find?_eq_some_iff`: a name has at most one entry.
* `rename_of_resolve`, `resolve_identity`: what a map resolves a name to.
* `renamesLike_of_perm`: the order of the entries.
-/

namespace PolicyDialects

open NamePair (Direction)

/-- The entries share a name of one side, up to the case of ASCII letters. -/
def NamePair.Clashes (p q : NamePair) : Prop :=
  Text.sameFold p.idql q.idql = true ∨ Text.sameFold p.provider q.provider = true

instance (p q : NamePair) : Decidable (p.Clashes q) :=
  inferInstanceAs (Decidable (_ ∨ _))

theorem NamePair.key_eq_iff {p q : NamePair} {d : Direction} :
    p.key d = q.key d ↔ Text.sameFold (p.source d) (q.source d) = true :=
  beq_iff_eq.symm

theorem NamePair.not_clashes_iff {p q : NamePair} :
    ¬ p.Clashes q ↔ ∀ d, p.key d ≠ q.key d := by
  simp only [ne_eq, NamePair.key_eq_iff, NamePair.Clashes, not_or]
  constructor
  · rintro ⟨hidql, hprovider⟩ (_ | _)
    · exact hidql
    · exact hprovider
  · intro h
    exact ⟨h .toProvider, h .toIdql⟩

theorem NamePair.pairwise_not_clashes_iff {pairs : List NamePair} :
    pairs.Pairwise (¬ ·.Clashes ·) ↔ ∀ d, (pairs.map (·.key d)).Nodup := by
  unfold List.Nodup
  simp only [List.pairwise_map, NamePair.not_clashes_iff]
  constructor
  · intro h d
    exact h.imp fun hkeys => hkeys d
  · intro h
    have hboth := (h .toProvider).and (h .toIdql)
    refine hboth.imp fun hkeys => ?_
    rintro (_ | _)
    · exact hkeys.1
    · exact hkeys.2

namespace NameMap

theorem keys_nodup (m : NameMap) (d : Direction) : (m.pairs.map (·.key d)).Nodup := by
  cases d with
  | toProvider => exact m.idql_nodup
  | toIdql => exact m.provider_nodup

theorem eq_of_pairs {m m' : NameMap} (hpairs : m.pairs = m'.pairs) (hstrict : m.strict = m'.strict) :
    m = m' := by
  cases m
  cases m'
  cases hpairs
  cases hstrict
  rfl

/-! ## The entries -/

theorem add_eq_ok_iff {m m' : NameMap} {p : NamePair} :
    m.add p = .ok m' ↔ m'.pairs = m.pairs ++ [p] ∧ m'.strict = m.strict := by
  constructor
  · intro h
    unfold add at h
    split_ifs at h
    cases h
    exact ⟨rfl, rfl⟩
  · rintro ⟨hpairs, hstrict⟩
    have hfree : ∀ d, p.key d ∉ m.pairs.map (·.key d) := by
      intro d hmem
      have hkeys := m'.keys_nodup d
      rw [hpairs, List.map_append, List.nodup_append] at hkeys
      exact hkeys.2.2 _ hmem _ (List.mem_singleton.mpr rfl) rfl
    unfold add
    rw [dif_neg (hfree .toProvider), dif_neg (hfree .toIdql)]
    exact congrArg Except.ok (eq_of_pairs hpairs.symm hstrict.symm)

/-- The first entries of a map make a map. -/
theorem exists_of_pairs_append {m : NameMap} {first rest : List NamePair}
    (h : m.pairs = first ++ rest) : ∃ m' : NameMap, m'.pairs = first ∧ m'.strict = m.strict := by
  have hkeys : ∀ d, (first.map (·.key d)).Nodup := by
    intro d
    have hall := m.keys_nodup d
    rw [h, List.map_append] at hall
    exact hall.of_append_left
  exact ⟨{ pairs := first, strict := m.strict, idql_nodup := hkeys .toProvider,
           provider_nodup := hkeys .toIdql }, rfl, rfl⟩

theorem foldlM_add_eq_ok_iff {pairs : List NamePair} {m m' : NameMap} :
    pairs.foldlM add m = .ok m' ↔ m'.pairs = m.pairs ++ pairs ∧ m'.strict = m.strict := by
  induction pairs generalizing m with
  | nil =>
    rw [List.foldlM_nil, List.append_nil]
    constructor
    · intro h
      cases h
      exact ⟨rfl, rfl⟩
    · rintro ⟨hpairs, hstrict⟩
      exact congrArg Except.ok (eq_of_pairs hpairs.symm hstrict.symm)
  | cons p pairs ih =>
    rw [List.foldlM_cons, bind_eq_ok]
    constructor
    · rintro ⟨m₁, hadd, hrest⟩
      obtain ⟨hpairs, hstrict⟩ := add_eq_ok_iff.mp hadd
      obtain ⟨hpairs', hstrict'⟩ := ih.mp hrest
      rw [hpairs', hstrict', hpairs, hstrict, List.append_assoc]
      exact ⟨rfl, rfl⟩
    · rintro ⟨hpairs, hstrict⟩
      have hsplit : m'.pairs = (m.pairs ++ [p]) ++ pairs := by
        rw [hpairs, List.append_assoc]
        rfl
      obtain ⟨m₁, hpairs₁, hstrict₁⟩ := exists_of_pairs_append hsplit
      refine ⟨m₁, add_eq_ok_iff.mpr ⟨hpairs₁, hstrict₁.trans hstrict⟩, ih.mpr ⟨?_, hstrict₁.symm⟩⟩
      rw [hsplit, hpairs₁]

/-- The map that is built has the entries that were given, in their order. -/
theorem ofPairs_eq_ok_iff {pairs : List NamePair} {strict : Bool} {m : NameMap} :
    ofPairs pairs strict = .ok m ↔ m.pairs = pairs ∧ m.strict = strict :=
  foldlM_add_eq_ok_iff

/-- Entries can be built into a map exactly if no two of them clash. -/
theorem exists_ofPairs_iff {pairs : List NamePair} {strict : Bool} :
    (∃ m, ofPairs pairs strict = .ok m) ↔ pairs.Pairwise (¬ ·.Clashes ·) := by
  rw [NamePair.pairwise_not_clashes_iff]
  constructor
  · rintro ⟨m, h⟩ d
    obtain ⟨rfl, -⟩ := ofPairs_eq_ok_iff.mp h
    exact m.keys_nodup d
  · intro h
    exact ⟨{ pairs, strict, idql_nodup := h .toProvider, provider_nodup := h .toIdql },
      ofPairs_eq_ok_iff.mpr ⟨rfl, rfl⟩⟩

theorem exists_ofPairs_of_perm {pairs pairs' : List NamePair} {strict : Bool} {m : NameMap}
    (h : ofPairs pairs strict = .ok m) (hperm : pairs'.Perm pairs) :
    ∃ m', ofPairs pairs' strict = .ok m' := by
  have hkeys := NamePair.pairwise_not_clashes_iff.mp (exists_ofPairs_iff.mp ⟨m, h⟩)
  apply exists_ofPairs_iff.mpr
  apply NamePair.pairwise_not_clashes_iff.mpr
  intro d
  exact (hperm.map (·.key d)).nodup_iff.mpr (hkeys d)

/-! ## Looking up -/

theorem eq_of_key_eq {m : NameMap} {p q : NamePair} (hp : p ∈ m.pairs) (hq : q ∈ m.pairs)
    {d : Direction} (h : p.key d = q.key d) : p = q :=
  List.inj_on_of_nodup_map (m.keys_nodup d) hp hq h

theorem find?_eq_some_iff {m : NameMap} {d : Direction} {name : String} {p : NamePair} :
    m.find? d name = some p ↔ p ∈ m.pairs ∧ Text.sameFold (p.source d) name = true := by
  unfold find?
  constructor
  · intro h
    have hsame := List.find?_some h
    exact ⟨List.mem_of_find?_eq_some h, hsame⟩
  · rintro ⟨hmem, hsame⟩
    have hsome : (m.pairs.find? fun q => q.key d == Text.foldCase name.toList).isSome :=
      List.find?_isSome.mpr ⟨p, hmem, hsame⟩
    obtain ⟨q, hq⟩ := Option.isSome_iff_exists.mp hsome
    have hq' := List.find?_some hq
    have hkeys : q.key d = p.key d := (eq_of_beq hq').trans (eq_of_beq hsame).symm
    rw [hq, eq_of_key_eq (List.mem_of_find?_eq_some hq) hmem hkeys]

/-! ## Resolving -/

/-- The name that a map resolves a name to, strict or not. -/
theorem rename_of_resolve {m : NameMap} {d : Direction} {path mapped : String}
    (h : m.resolve d path = .ok mapped) : m.rename d path = mapped := by
  unfold resolve at h
  unfold rename
  split at h
  · rename_i hrename
    rw [hrename]
    exact Except.ok.inj h
  · rename_i hrename
    split_ifs at h
    rw [hrename]
    exact Except.ok.inj h

theorem resolve_identity (d : Direction) (path : String) :
    identity.resolve d path = .ok path := by
  have hnone : identity.rename? d path = none := by
    unfold rename?
    simp [identity, find?, List.findSome?_eq_none_iff]
  unfold resolve
  rw [hnone]
  rfl

theorem rename_identity (d : Direction) (path : String) : identity.rename d path = path :=
  rename_of_resolve (resolve_identity d path)

/-! ## The order of the entries -/

/-- The maps have as many entries, are equally strict, and rename alike. -/
structure RenamesLike (m m' : NameMap) : Prop where
  size : m.size = m'.size
  strict : m.strict = m'.strict
  rename? : m.rename? = m'.rename?
  resolve : m.resolve = m'.resolve

theorem renamesLike_of_perm {m m' : NameMap} (hpairs : m.pairs.Perm m'.pairs)
    (hstrict : m.strict = m'.strict) : m.RenamesLike m' := by
  have hfind : m.find? = m'.find? := by
    funext d name
    apply Option.ext
    intro p
    simp only [find?_eq_some_iff, hpairs.mem_iff]
  have hrename : m.rename? = m'.rename? := by
    funext d path
    unfold NameMap.rename?
    rw [hfind]
  refine ⟨hpairs.length_eq, hstrict, hrename, ?_⟩
  funext d path
  unfold NameMap.resolve
  rw [hrename, hstrict]

end NameMap

end PolicyDialects
