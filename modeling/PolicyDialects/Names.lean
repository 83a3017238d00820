import PolicyDialects.Error

/-!
# Attribute names

A one-to-one list of attribute names, each with its name at a provider, and
the renaming of dotted paths by it: the longest run of leading segments that is
listed, up to the case of ASCII letters, is replaced, and the segments after it
are kept (specification, sections 4.4 and 10.6).

* `NameMap` — the list; no two entries agree on either side
  (`idql_nodup`, `provider_nodup`).
* `NameMap.ofPairs` — building it, with the first duplicate as the error.
* `NameMap.toProvider`, `NameMap.toIdql` — renaming, unknown names kept.
* `NameMap.resolveProvider`, `NameMap.resolveIdql` — the same, but a strict map refuses
  unknown names.
-/

namespace PolicyDialects

/-- An attribute and its name at the provider. -/
structure NamePair where
  idql : String
  provider : String
  deriving DecidableEq, Inhabited

namespace NamePair

/-- Whose names become whose. Model of `Direction`. -/
inductive Direction where
  | toProvider
  | toIdql
  deriving DecidableEq

/-- The name that is looked up. -/
def source (p : NamePair) : Direction → String
  | .toProvider => p.idql
  | .toIdql => p.provider

/-- The name that is found. -/
def target (p : NamePair) : Direction → String
  | .toProvider => p.provider
  | .toIdql => p.idql

/-- The name that is looked up, with small ASCII letters. -/
def key (p : NamePair) (d : Direction) : List Char := Text.foldCase (p.source d).toList

end NamePair

/-- Attribute names and their provider names. Both sides are free of duplicates
up to the case of ASCII letters. Model of `AttributeNameMapper`. -/
structure NameMap where
  pairs : List NamePair := []
  strict : Bool := false
  idql_nodup : (pairs.map (·.key .toProvider)).Nodup := by simp
  provider_nodup : (pairs.map (·.key .toIdql)).Nodup := by simp

namespace NameMap

open NamePair (Direction)

instance : Inhabited NameMap := ⟨{}⟩

/-- The map without entries, through which every name passes unchanged. Model of
`AttributeNameMapper.identity`. -/
def identity : NameMap := {}

/-- The number of entries. Model of `AttributeNameMapper.len`. -/
def size (m : NameMap) : Nat := m.pairs.length

/-! ## Building -/

/-- Adds an entry, unless a name of it is taken. The body of the loop of
`NameMapperBuilder.build`. -/
def add (m : NameMap) (p : NamePair) : Except PolicyError NameMap :=
  if hi : p.key .toProvider ∈ m.pairs.map (·.key .toProvider) then
    .error (.invalidFormat ("duplicate IDQL attribute name '" ++ p.idql ++ "' in name map"))
  else if hp : p.key .toIdql ∈ m.pairs.map (·.key .toIdql) then
    .error (.invalidFormat
      ("duplicate provider attribute name '" ++ p.provider ++ "' in name map"))
  else
    .ok { m with
      pairs := m.pairs ++ [p]
      idql_nodup := by
        rw [List.map_append, List.nodup_append]
        exact ⟨m.idql_nodup, by simp, by simpa using fun a ha h => hi (by simpa using ⟨a, ha, h⟩)⟩
      provider_nodup := by
        rw [List.map_append, List.nodup_append]
        exact ⟨m.provider_nodup, by simp,
          by simpa using fun a ha h => hp (by simpa using ⟨a, ha, h⟩)⟩ }

/-- The map of the given entries, in order. Model of
`NameMapperBuilder.build`. -/
def ofPairs (pairs : List NamePair) (strict : Bool) : Except PolicyError NameMap :=
  pairs.foldlM add { strict }

/-- The entries of a JSON object of strings, in the order of their keys; of two
members with one key the later one counts. Model of
`AttributeNameMapper.from_json`. -/
def ofJson (text : String) : Except PolicyError NameMap :=
  let entries? : Option (List NamePair) := do
    match ← Json.read? text with
    | .object members =>
      members.mapM fun (key, value) => return { idql := ← key, provider := ← value.text? }
    | _ => none
  match entries? with
  | none => .error .malformedJson
  | some entries =>
    let last := Json.dropOverridden (entries.map fun p => (some p.idql, p))
    ofPairs ((last.map (·.2)).mergeSort fun p q => decide (p.idql ≤ q.idql)) false

/-! ## Renaming -/

/-- The entry for a name. The look-up of `translate`. -/
def find? (m : NameMap) (d : Direction) (name : String) : Option NamePair :=
  m.pairs.find? fun p => p.key d == Text.foldCase name.toList

/-- The dotted segments of a path. -/
def segments (path : String) : List String := (path.toList.splitOn '.').map String.ofList

/-- The path with its longest listed run of leading segments replaced. Model of
`translate`. -/
def rename? (m : NameMap) (d : Direction) (path : String) : Option String :=
  let parts := segments path
  (List.range parts.length).reverse.findSome? fun i =>
    (m.find? d (".".intercalate (parts.take (i + 1)))).map fun p =>
      ".".intercalate (p.target d :: parts.drop (i + 1))

/-- The renamed path, or the path itself when no run of it is listed. -/
def rename (m : NameMap) (d : Direction) (path : String) : String :=
  (m.rename? d path).getD path

/-- The renamed path; a strict map refuses a path it does not list. Model of
`try_translate`. -/
def resolve (m : NameMap) (d : Direction) (path : String) : Except PolicyError String :=
  match m.rename? d path with
  | some mapped => .ok mapped
  | none => if m.strict then .error (.unmappedName path) else .ok path

/-- The provider name of an attribute. Model of `to_provider`. -/
def toProvider (m : NameMap) (path : String) : String := m.rename .toProvider path

/-- The attribute of a provider name. Model of `to_idql`. -/
def toIdql (m : NameMap) (path : String) : String := m.rename .toIdql path

/-- The provider name of an attribute, when the map allows it. Model of
`try_to_provider`. -/
def resolveProvider (m : NameMap) (path : String) : Except PolicyError String :=
  m.resolve .toProvider path

/-- The attribute of a provider name, when the map allows it. Model of
`try_to_idql`. -/
def resolveIdql (m : NameMap) (path : String) : Except PolicyError String :=
  m.resolve .toIdql path

end NameMap

end PolicyDialects
