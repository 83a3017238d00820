import PolicyDialects.Error

/-!
# Policy stores

A store keeps texts under ids that it gives out itself, `policy-` and a number
of at least eight digits, and never twice (specification, section 6.5).

* `Store` — the entries, sorted by id, and how many were ever created.
* `Store.create`, `get`, `update`, `delete` — one entry at a time.
* `Store.ids`, `Store.bodies` — the entries in the order of their ids.
* `StoreM` — programs over a store, which keep it when they fail.
-/

namespace PolicyDialects

/-- A store of texts. Model of `InMemoryPolicyStore`. -/
structure Store where
  /-- Ids and texts, sorted by id. -/
  entries : List (String × String) := []
  /-- The number of entries ever created. It is not bounded, and agrees with a
  counter of 64 bits below `2 ^ 64` creations. -/
  created : Nat := 0
  deriving DecidableEq, Inhabited

namespace Store

/-- A store without entries. -/
def empty : Store := {}

/-- The id of the `n`-th entry that is created. Model of `next_id`. -/
def idOf (n : Nat) : String := "policy-" ++ String.ofList (Text.padded 8 n)

/-- The error of an id that the store does not hold. Model of `not_found`. -/
def notFound (id : String) : PolicyError := .store ("no policy with id '" ++ id ++ "'")

/-- The ids of all entries, sorted. Model of `PolicyStore.list`. -/
def ids (s : Store) : List String := s.entries.map (·.1)

/-- The texts of all entries, sorted by id. -/
def bodies (s : Store) : List String := s.entries.map (·.2)

/-- The number of entries. Model of `InMemoryPolicyStore.len`. -/
def size (s : Store) : Nat := s.entries.length

/-- Whether there is no entry. Model of `InMemoryPolicyStore.is_empty`. -/
def isEmpty (s : Store) : Bool := s.entries.isEmpty

/-- The text of an entry, if it is held. -/
def find? (s : Store) (id : String) : Option String :=
  (s.entries.find? fun (key, _) => key == id).map (·.2)

/-- The text of an entry. Model of `PolicyStore.get`. -/
def get (s : Store) (id : String) : Except PolicyError String :=
  match s.find? id with
  | some body => .ok body
  | none => .error (notFound id)

/-- Puts an entry in its place among sorted entries. -/
def insertSorted (id body : String) : List (String × String) → List (String × String)
  | [] => [(id, body)]
  | (key, value) :: rest =>
    if id < key then (id, body) :: (key, value) :: rest
    else (key, value) :: insertSorted id body rest

/-- Adds a text under a new id. Model of `PolicyStore.create`. -/
def create (s : Store) (body : String) : String × Store :=
  let id := idOf (s.created + 1)
  (id, { entries := insertSorted id body s.entries, created := s.created + 1 })

/-- Replaces the text of an entry. Model of `PolicyStore.update`. -/
def update (s : Store) (id body : String) : Except PolicyError Store :=
  if id ∈ s.ids then
    .ok { s with
      entries := s.entries.map fun (key, value) => (key, if key = id then body else value) }
  else .error (notFound id)

/-- Removes an entry. Model of `PolicyStore.delete`. -/
def delete (s : Store) (id : String) : Except PolicyError Store :=
  if id ∈ s.ids then .ok { s with entries := s.entries.filter fun (key, _) => key ≠ id }
  else .error (notFound id)

end Store

/-! ## Programs over a store -/

/-- A program that works on a store and may stop with an error; what it wrote
before that stays. -/
abbrev StoreM (α : Type) := ExceptT PolicyError (StateM Store) α

namespace StoreM

/-- The answer of a program, and the store after it. -/
def runOn {α : Type} (program : StoreM α) (s : Store) : Except PolicyError α × Store :=
  program.run s

/-- The ids of all entries. -/
def ids : StoreM (List String) := do return (← get).ids

/-- The text of an entry. -/
def fetch (id : String) : StoreM String := do MonadExcept.ofExcept ((← get).get id)

/-- Adds a text under a new id. -/
def create (body : String) : StoreM String := do
  let (id, s) := (← get).create body
  set s
  return id

/-- Replaces the text of an entry. -/
def update (id body : String) : StoreM Unit := do
  set (← MonadExcept.ofExcept ((← get).update id body))

/-- Removes an entry. -/
def delete (id : String) : StoreM Unit := do
  set (← MonadExcept.ofExcept ((← get).delete id))

end StoreM

end PolicyDialects
