import PolicyDialects.Proofs.Names.Building
import PolicyDialects.Proofs.Text.Joined

/-!
# Renaming there and back

A path is renamed by its longest leading run of segments that is listed. The run
is replaced by a name of any number of segments, and on the way back a longer run
of the result may be listed.

* `NameMap.leadingRun`, `NameMap.replaceRun` — the first segments of a path, and
  the path with a name in their place.
* `NameMap.IsListed`, `NameMap.IsLongest` — the entries for the runs of a path.

Results:

* `rename?_eq_none_iff`, `rename?_eq_some_iff`: what renaming looks for.
* `toIdql_toProvider_eq_iff`: the paths that come back.
* `ofPairs_renames`: what can be built, and how it renames.
* `ofPairs_renames_capturing`: another entry may take what was renamed.
-/

namespace PolicyDialects.NameMap

open NamePair (Direction)
open Text

/-! ## Runs of segments -/

/-- The path of the first `n` segments. -/
def leadingRun (n : Nat) (path : String) : String := ".".intercalate ((segments path).take n)

/-- The path with a name in place of its first `n` segments. -/
def replaceRun (name : String) (n : Nat) (path : String) : String :=
  ".".intercalate (name :: (segments path).drop n)

theorem segments_ne_nil (path : String) : segments path ≠ [] := by
  unfold segments
  rw [Ne, List.map_eq_nil_iff]
  exact List.splitOn_ne_nil '.' path.toList

theorem toList_intercalate_map (parts : List (List Char)) :
    (".".intercalate (parts.map String.ofList)).toList = ['.'].intercalate parts := by
  have hparts : (parts.map String.ofList).map String.toList = parts := by
    rw [List.map_map]
    exact (List.map_congr_left fun _ _ => String.toList_ofList).trans (List.map_id' parts)
  rw [String.toList_intercalate, hparts]
  rfl

theorem intercalate_segments (path : String) : ".".intercalate (segments path) = path := by
  apply String.toList_inj.mp
  unfold segments
  rw [toList_intercalate_map, List.intercalate_splitOn]

theorem segments_intercalate {parts : List String} (hne : parts ≠ [])
    (h : ∀ s ∈ parts, '.' ∉ s.toList) : segments (".".intercalate parts) = parts := by
  have hsplit : (['.'].intercalate (parts.map String.toList)).splitOn '.' =
      parts.map String.toList :=
    List.splitOn_intercalate '.' (List.forall_mem_map.mpr h) (by simpa using hne)
  unfold segments
  rw [String.toList_intercalate]
  show ((['.'].intercalate (parts.map String.toList)).splitOn '.').map String.ofList = parts
  rw [hsplit, List.map_map]
  exact (List.map_congr_left fun _ _ => String.ofList_toList).trans (List.map_id' parts)

theorem not_mem_of_mem_segments {path s : String} (h : s ∈ segments path) : '.' ∉ s.toList := by
  unfold segments at h
  obtain ⟨part, hpart, rfl⟩ := List.mem_map.mp h
  rw [String.toList_ofList]
  exact not_mem_of_mem_splitOn hpart

/-- A name in front of other segments counts with all of its own. -/
theorem segments_intercalate_cons {name : String} {rest : List String}
    (h : ∀ s ∈ rest, '.' ∉ s.toList) :
    segments (".".intercalate (name :: rest)) = segments name ++ rest := by
  have hjoin := intercalate_intercalate_append "." (segments_ne_nil name) rest
  rw [intercalate_segments] at hjoin
  rw [hjoin]
  apply segments_intercalate
  · exact List.append_ne_nil_of_left_ne_nil (segments_ne_nil name) rest
  · intro s hs
    rcases List.mem_append.mp hs with hs | hs
    · exact not_mem_of_mem_segments hs
    · exact h s hs

section

variable (name : String) (n : Nat) (path : String)

@[simp] theorem segments_replaceRun :
    segments (replaceRun name n path) = segments name ++ (segments path).drop n :=
  segments_intercalate_cons fun _ hs => not_mem_of_mem_segments (List.mem_of_mem_drop hs)

@[simp] theorem leadingRun_replaceRun :
    leadingRun (segments name).length (replaceRun name n path) = name := by
  unfold leadingRun
  rw [segments_replaceRun, List.take_left, intercalate_segments]

/-- Behind the name of a first renaming, a second one drops segments of the path. -/
@[simp] theorem replaceRun_replaceRun (name' : String) (k : Nat) :
    replaceRun name' ((segments name).length + k) (replaceRun name n path) =
      replaceRun name' (n + k) path := by
  have hdrop : (segments (replaceRun name n path)).drop ((segments name).length + k) =
      (segments path).drop (n + k) := by
    rw [segments_replaceRun, ← List.drop_drop, List.drop_left, List.drop_drop]
  show ".".intercalate (name' :: (segments (replaceRun name n path)).drop _) = _
  rw [hdrop]
  rfl

variable {n}

/-- Nothing changes when a run is put in its own place. -/
theorem replaceRun_leadingRun (h : 0 < n) : replaceRun (leadingRun n path) n path = path := by
  have hne : (segments path).take n ≠ [] := by
    rw [Ne, List.take_eq_nil_iff, not_or]
    exact ⟨by omega, segments_ne_nil path⟩
  unfold replaceRun leadingRun
  rw [intercalate_intercalate_append "." hne, List.take_append_drop, intercalate_segments]

theorem replaceRun_left_inj {name' : String} :
    replaceRun name n path = replaceRun name' n path ↔ name = name' := by
  unfold replaceRun
  rw [← String.toList_inj, toList_intercalate_cons, toList_intercalate_cons,
    List.append_left_inj, String.toList_inj]

end

/-! ## The longest run -/

/-- The entry is listed for the first `n` segments of the path, up to the case of
ASCII letters. -/
structure IsListed (pairs : List NamePair) (d : Direction) (path : String) (n : Nat)
    (p : NamePair) : Prop where
  mem : p ∈ pairs
  pos : 0 < n
  le : n ≤ (segments path).length
  same : sameFold (p.source d) (leadingRun n path) = true

/-- No run of the path is listed. -/
def IsUnlisted (pairs : List NamePair) (d : Direction) (path : String) : Prop :=
  ∀ n p, ¬ IsListed pairs d path n p

/-- No longer run of the path is listed. -/
structure IsLongest (pairs : List NamePair) (d : Direction) (path : String) (n : Nat)
    (p : NamePair) : Prop extends IsListed pairs d path n p where
  longest : ∀ k q, IsListed pairs d path k q → k ≤ n

theorem findSome?_reverse_range {α : Type} {f : Nat → Option α} {n : Nat} {y : α} :
    (List.range n).reverse.findSome? f = some y ↔
      ∃ i < n, f i = some y ∧ ∀ j < n, i < j → f j = none := by
  induction n with
  | zero => simp
  | succ n ih =>
    rw [List.range_succ, List.reverse_append, List.reverse_singleton, List.singleton_append,
      List.findSome?_cons]
    cases hlast : f n with
    | some z =>
      constructor
      · intro h
        exact ⟨n, by omega, hlast.trans h, fun j hj hlt => by omega⟩
      · rintro ⟨i, hi, hfound, hnone⟩
        by_cases hin : i = n
        · rw [← hfound, hin, hlast]
        · rw [hnone n (by omega) (by omega)] at hlast
          cases hlast
    | none =>
      show (List.range n).reverse.findSome? f = some y ↔ _
      rw [ih]
      constructor
      · rintro ⟨i, hi, hfound, hnone⟩
        refine ⟨i, by omega, hfound, fun j hj hlt => ?_⟩
        by_cases hjn : j = n
        · rw [hjn, hlast]
        · exact hnone j (by omega) hlt
      · rintro ⟨i, hi, hfound, hnone⟩
        have hin : i ≠ n := by
          rintro rfl
          rw [hlast] at hfound
          cases hfound
        exact ⟨i, by omega, hfound, fun j hj hlt => hnone j (by omega) hlt⟩

section

variable {m : NameMap} {d : Direction} {path : String}

theorem isListed_iff {n : Nat} {p : NamePair} :
    IsListed m.pairs d path (n + 1) p ↔
      n < (segments path).length ∧ m.find? d (leadingRun (n + 1) path) = some p := by
  rw [find?_eq_some_iff]
  constructor
  · intro h
    exact ⟨h.le, h.mem, h.same⟩
  · rintro ⟨hle, hmem, hsame⟩
    exact ⟨hmem, by omega, hle, hsame⟩

/-- Renaming replaces the longest run that is listed. -/
theorem rename?_eq_some_iff {mapped : String} :
    m.rename? d path = some mapped ↔
      ∃ n p, IsLongest m.pairs d path n p ∧ mapped = replaceRun (p.target d) n path := by
  unfold rename?
  rw [findSome?_reverse_range]
  simp only [Option.map_eq_some_iff, Option.map_eq_none_iff]
  constructor
  · rintro ⟨i, hi, ⟨p, hp, rfl⟩, hnone⟩
    refine ⟨i + 1, p, ⟨isListed_iff.mpr ⟨hi, hp⟩, fun k q hq => ?_⟩, rfl⟩
    obtain ⟨k, rfl⟩ := Nat.exists_eq_add_of_le' hq.pos
    by_contra hlonger
    obtain ⟨hk, hfound⟩ := isListed_iff.mp hq
    have hmissing := hnone k hk (by omega)
    rw [← leadingRun, hfound] at hmissing
    cases hmissing
  · rintro ⟨n, p, hlongest, rfl⟩
    obtain ⟨i, rfl⟩ := Nat.exists_eq_add_of_le' hlongest.pos
    obtain ⟨hi, hp⟩ := isListed_iff.mp hlongest.toIsListed
    refine ⟨i, hi, ⟨p, hp, rfl⟩, fun j hj hlt => ?_⟩
    rw [Option.eq_none_iff_forall_ne_some]
    intro q hq
    have hle := hlongest.longest (j + 1) q (isListed_iff.mpr ⟨hj, hq⟩)
    omega

theorem rename?_eq_none_iff : m.rename? d path = none ↔ IsUnlisted m.pairs d path := by
  unfold rename?
  rw [List.findSome?_eq_none_iff]
  simp only [Option.map_eq_none_iff, List.mem_reverse, List.mem_range]
  constructor
  · intro h n p hlisted
    obtain ⟨i, rfl⟩ := Nat.exists_eq_add_of_le' hlisted.pos
    obtain ⟨hi, hp⟩ := isListed_iff.mp hlisted
    have hmissing := h i hi
    rw [← leadingRun, hp] at hmissing
    cases hmissing
  · intro h i hi
    rw [Option.eq_none_iff_forall_ne_some]
    intro p hp
    exact h (i + 1) p (isListed_iff.mpr ⟨hi, hp⟩)

/-- Of the runs that are listed, one is the longest. -/
theorem exists_isLongest {n : Nat} {p : NamePair} (h : IsListed m.pairs d path n p) :
    ∃ k q, IsLongest m.pairs d path k q := by
  cases hfound : m.rename? d path with
  | none => exact absurd h (rename?_eq_none_iff.mp hfound n p)
  | some mapped =>
    obtain ⟨k, q, hlongest, -⟩ := rename?_eq_some_iff.mp hfound
    exact ⟨k, q, hlongest⟩

theorem rename_of_isLongest {n : Nat} {p : NamePair} (h : IsLongest m.pairs d path n p) :
    m.rename d path = replaceRun (p.target d) n path := by
  rw [rename, rename?_eq_some_iff.mpr ⟨n, p, h, rfl⟩, Option.getD_some]

theorem rename_of_isUnlisted (h : IsUnlisted m.pairs d path) : m.rename d path = path := by
  rw [rename, rename?_eq_none_iff.mpr h, Option.getD_none]

/-- A path has no listed run, or a longest one. -/
theorem isUnlisted_or_exists (m : NameMap) (d : Direction) (path : String) :
    IsUnlisted m.pairs d path ∨ ∃ n p, IsLongest m.pairs d path n p := by
  by_cases h : IsUnlisted m.pairs d path
  · exact .inl h
  · simp only [IsUnlisted, not_forall, not_not] at h
    obtain ⟨n, p, hlisted⟩ := h
    exact .inr (exists_isLongest hlisted)

/-- A strict map refuses the paths without a listed run, and no other map refuses
any. -/
theorem resolve_eq_error_iff {e : PolicyError} :
    m.resolve d path = .error e ↔
      m.strict = true ∧ e = .unmappedName path ∧ IsUnlisted m.pairs d path := by
  rw [← rename?_eq_none_iff]
  unfold resolve
  cases m.rename? d path with
  | some mapped => simp
  | none =>
    cases hstrict : m.strict
    · simp
    · simp [eq_comm]

end

/-! ## The way back -/

section

variable {m : NameMap} {path : String} {n : Nat} {p : NamePair}

/-- An entry whose name stands where it already stood is listed there. -/
theorem isListed_of_replaceRun_eq {pairs : List NamePair} {d : Direction} (hp : p ∈ pairs)
    (hpos : 0 < n) (hle : n ≤ (segments path).length)
    (h : replaceRun (p.source d) n path = path) : IsListed pairs d path n p := by
  have hname : p.source d = leadingRun n path := by
    apply (replaceRun_left_inj (p.source d) path).mp
    rw [h, replaceRun_leadingRun path hpos]
  refine ⟨hp, hpos, hle, ?_⟩
  rw [hname]
  exact beq_self_eq_true _

/-- The name that was put in is listed on the way back. -/
theorem isListed_provider {pairs : List NamePair} (hp : p ∈ pairs) (n : Nat) (path : String) :
    IsListed pairs .toIdql (replaceRun p.provider n path) (segments p.provider).length p where
  mem := hp
  pos := List.length_pos_iff.mpr (segments_ne_nil p.provider)
  le := by
    rw [segments_replaceRun, List.length_append]
    exact Nat.le_add_right _ _
  same := by
    rw [leadingRun_replaceRun]
    exact beq_self_eq_true _

/-- On the way back, the entry of the name that was put in is found, unless
another one is listed for a longer run. -/
theorem eq_of_isListed_provider (hp : p ∈ m.pairs) {q : NamePair}
    (h : IsListed m.pairs .toIdql (replaceRun p.provider n path) (segments p.provider).length q) :
    q = p := by
  have hsame := h.same
  rw [leadingRun_replaceRun] at hsame
  exact eq_of_key_eq h.mem hp (NamePair.key_eq_iff.mpr hsame)

theorem toIdql_eq_self_iff (hunlisted : IsUnlisted m.pairs .toProvider path) :
    m.toIdql path = path ↔ IsUnlisted m.pairs .toIdql path := by
  constructor
  · intro h k q hq
    obtain ⟨k, q, hlongest⟩ := exists_isLongest hq
    rw [toIdql, rename_of_isLongest hlongest] at h
    exact hunlisted k q (isListed_of_replaceRun_eq hlongest.mem hlongest.pos hlongest.le h)
  · exact rename_of_isUnlisted

/-- No run is listed on the way back that is longer than the name that was put
in. -/
def IsUncaptured (pairs : List NamePair) (p : NamePair) (n : Nat) (path : String) : Prop :=
  ∀ k q, IsListed pairs .toIdql (replaceRun p.provider n path) k q →
    k ≤ (segments p.provider).length

theorem toIdql_replaceRun_eq_iff (h : IsLongest m.pairs .toProvider path n p) :
    m.toIdql (replaceRun p.provider n path) = path ↔
      leadingRun n path = p.idql ∧ IsUncaptured m.pairs p n path := by
  have hback := isListed_provider h.mem n path
  obtain ⟨k, q, hlongest⟩ := exists_isLongest hback
  obtain ⟨t, rfl⟩ := Nat.exists_eq_add_of_le (hlongest.longest _ _ hback)
  have hown : replaceRun p.idql n path = path ↔ leadingRun n path = p.idql := by
    have hname := @replaceRun_left_inj p.idql n path (leadingRun n path)
    rw [replaceRun_leadingRun path h.pos] at hname
    exact hname.trans eq_comm
  rw [toIdql, rename_of_isLongest hlongest, replaceRun_replaceRun]
  constructor
  · intro heq
    -- the entry that was found is listed for the path itself, so its run is no longer
    have hle := hlongest.le
    rw [segments_replaceRun, List.length_append, List.length_drop] at hle
    have hlisted : IsListed m.pairs .toProvider path (n + t) q :=
      isListed_of_replaceRun_eq hlongest.mem (by have := h.pos; omega) (by have := h.le; omega) heq
    obtain rfl : t = 0 := by
      have := h.longest _ _ hlisted
      omega
    obtain rfl := eq_of_isListed_provider h.mem hlongest.toIsListed
    exact ⟨hown.mp heq, fun k r hr => hlongest.longest k r hr⟩
  · rintro ⟨hspelled, huncaptured⟩
    obtain rfl : t = 0 := by
      have := huncaptured _ _ hlongest.toIsListed
      omega
    obtain rfl := eq_of_isListed_provider h.mem hlongest.toIsListed
    exact hown.mpr hspelled

/-- A path comes back from its provider name exactly if nothing is listed for it,
or its longest run is spelled as it is listed and no other entry takes more than
the name that replaced it. -/
theorem toIdql_toProvider_eq_iff :
    m.toIdql (m.toProvider path) = path ↔
      (∀ d, IsUnlisted m.pairs d path) ∨
      ∃ n p, IsLongest m.pairs .toProvider path n p ∧ leadingRun n path = p.idql ∧
        IsUncaptured m.pairs p n path := by
  rcases m.isUnlisted_or_exists .toProvider path with hunlisted | ⟨n, p, hlongest⟩
  · rw [toProvider, rename_of_isUnlisted hunlisted, toIdql_eq_self_iff hunlisted]
    constructor
    · intro h
      refine .inl ?_
      rintro (_ | _)
      · exact hunlisted
      · exact h
    · rintro (h | ⟨n, p, hlongest, -⟩)
      · exact h .toIdql
      · exact absurd hlongest.toIsListed (hunlisted n p)
  · rw [toProvider, rename_of_isLongest hlongest]
    constructor
    · intro h
      exact .inr ⟨n, p, hlongest, (toIdql_replaceRun_eq_iff hlongest).mp h⟩
    · rintro (h | ⟨k, q, hlongest', hback⟩)
      · exact absurd hlongest.toIsListed (h .toProvider n p)
      · have hsame := rename_of_isLongest hlongest
        rw [rename_of_isLongest hlongest'] at hsame
        show m.toIdql (replaceRun (p.target .toProvider) n path) = path
        rw [← hsame]
        exact (toIdql_replaceRun_eq_iff hlongest').mpr hback

/-- What a strict map has renamed, it does not refuse on the way back. -/
theorem exists_resolveIdql (hstrict : m.strict = true) {mapped : String}
    (h : m.resolveProvider path = .ok mapped) : ∃ name, m.resolveIdql mapped = .ok name := by
  rcases m.isUnlisted_or_exists .toProvider path with hunlisted | ⟨n, p, hlongest⟩
  · have hrefused := resolve_eq_error_iff.mpr ⟨hstrict, rfl, hunlisted⟩
    rw [resolveProvider, hrefused] at h
    cases h
  · have hmapped := rename_of_resolve h
    rw [rename_of_isLongest hlongest] at hmapped
    cases hback : m.resolveIdql mapped with
    | ok name => exact ⟨name, rfl⟩
    | error e =>
      obtain ⟨-, -, hunlisted⟩ := resolve_eq_error_iff.mp hback
      rw [← hmapped] at hunlisted
      exact absurd (isListed_provider hlongest.mem n path) (hunlisted _ p)

end

/-- Entries can be built into a map exactly if no two of them share a name, and
then in any order. The map replaces the longest run of a path that is listed, and
leads back to the path exactly if nothing is listed for it, or its run is spelled
as it is listed and no other entry takes more than the name that replaced it. If
it is strict, it refuses the paths without a listed run, and no name that it has
made of another path. -/
theorem ofPairs_renames (pairs : List NamePair) (strict : Bool) :
    ((∃ m, ofPairs pairs strict = .ok m) ↔ pairs.Pairwise (¬ ·.Clashes ·)) ∧
    ∀ m, ofPairs pairs strict = .ok m →
      (∀ pairs' : List NamePair, pairs'.Perm pairs →
        ∃ m', ofPairs pairs' strict = .ok m' ∧ m'.RenamesLike m) ∧
      ∀ path,
        (IsUnlisted pairs .toProvider path ∧ m.toProvider path = path ∨
          ∃ n p, IsLongest pairs .toProvider path n p ∧
            m.toProvider path = replaceRun p.provider n path) ∧
        (m.toIdql (m.toProvider path) = path ↔
          (∀ d, IsUnlisted pairs d path) ∨
          ∃ n p, IsLongest pairs .toProvider path n p ∧ leadingRun n path = p.idql ∧
            IsUncaptured pairs p n path) ∧
        (strict = true →
          (∀ e, m.resolveProvider path = .error e ↔
            e = .unmappedName path ∧ IsUnlisted pairs .toProvider path) ∧
          ∀ mapped, m.resolveProvider path = .ok mapped →
            ∃ name, m.resolveIdql mapped = .ok name) := by
  refine ⟨exists_ofPairs_iff, fun m hm => ⟨fun pairs' hperm => ?_, fun path => ?_⟩⟩
  · obtain ⟨m', hm'⟩ := exists_ofPairs_of_perm hm hperm
    refine ⟨m', hm', ?_⟩
    obtain ⟨rfl, rfl⟩ := ofPairs_eq_ok_iff.mp hm
    obtain ⟨rfl, hstrict⟩ := ofPairs_eq_ok_iff.mp hm'
    exact renamesLike_of_perm hperm hstrict
  · obtain ⟨rfl, rfl⟩ := ofPairs_eq_ok_iff.mp hm
    refine ⟨?_, toIdql_toProvider_eq_iff, fun hstrict => ⟨fun e => ?_, fun mapped hmapped => ?_⟩⟩
    · rcases m.isUnlisted_or_exists .toProvider path with hunlisted | ⟨n, p, hlongest⟩
      · exact .inl ⟨hunlisted, rename_of_isUnlisted hunlisted⟩
      · exact .inr ⟨n, p, hlongest, rename_of_isLongest hlongest⟩
    · exact resolve_eq_error_iff.trans (and_iff_right hstrict)
    · exact exists_resolveIdql hstrict hmapped

/-- A name with a longer entry for what another one may lead to. -/
def capturing : NameMap where
  pairs := [⟨"a", "b"⟩, ⟨"c", "b.d"⟩]
  strict := true
  idql_nodup := by decide
  provider_nodup := by decide

theorem ofPairs_renames_capturing :
    ofPairs capturing.pairs true = .ok capturing ∧
      capturing.toIdql (capturing.toProvider "a.e") = "a.e" ∧
      (∃ n p, IsLongest capturing.pairs .toProvider "a.e" n p ∧ leadingRun n "a.e" = p.idql ∧
        IsUncaptured capturing.pairs p n "a.e") ∧
      capturing.toIdql (capturing.toProvider "a.d") = "c" ∧
      ¬ ∃ n p, IsLongest capturing.pairs .toProvider "a.d" n p ∧ leadingRun n "a.d" = p.idql ∧
        IsUncaptured capturing.pairs p n "a.d" := by
  have hbuilt : ofPairs capturing.pairs true = .ok capturing := ofPairs_eq_ok_iff.mpr ⟨rfl, rfl⟩
  have hreturns : capturing.toIdql (capturing.toProvider "a.e") = "a.e" := by decide +kernel
  have hcaptured : capturing.toIdql (capturing.toProvider "a.d") = "c" := by decide +kernel
  obtain ⟨-, hpaths⟩ := (ofPairs_renames capturing.pairs true).2 capturing hbuilt
  obtain ⟨-, hback, -⟩ := hpaths "a.e"
  obtain ⟨-, hback', -⟩ := hpaths "a.d"
  refine ⟨hbuilt, hreturns, ?_, hcaptured, fun h => ?_⟩
  · rcases hback.mp hreturns with hunlisted | h
    · have hlisted : IsListed capturing.pairs .toProvider "a.e" 1 ⟨"a", "b"⟩ :=
        ⟨by decide, by decide, by decide +kernel, by decide +kernel⟩
      exact absurd hlisted (hunlisted .toProvider 1 _)
    · exact h
  · have hsame := hback'.mpr (.inr h)
    rw [hcaptured] at hsame
    exact absurd hsame (by decide)

end PolicyDialects.NameMap
