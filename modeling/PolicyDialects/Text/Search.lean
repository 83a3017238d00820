/-!
# Searching and splitting text

* `stripPrefix?`, `stripSuffix?` — the text without a given end.
* `splitFirst?`, `splitLast?` — the parts around the first or last occurrence
  of a mark (`append_of_splitFirst?`: nothing but the mark is lost).
* `occursIn` — whether a mark occurs at all.
-/

namespace PolicyDialects.Text

/-! ## Ends -/

/-- What follows `mark` in a text that starts with it. -/
def stripPrefix? : (mark cs : List Char) → Option (List Char)
  | [], cs => some cs
  | _ :: _, [] => none
  | m :: mark, c :: cs => if m = c then stripPrefix? mark cs else none

theorem stripPrefix?_eq_some_iff {mark cs rest : List Char} :
    stripPrefix? mark cs = some rest ↔ cs = mark ++ rest := by
  induction mark generalizing cs with
  | nil => simp [stripPrefix?, eq_comm]
  | cons m mark ih =>
    cases cs with
    | nil => simp [stripPrefix?]
    | cons c cs =>
      by_cases h : m = c
      · simp [stripPrefix?, h, ih]
      · simp [stripPrefix?, h]
        intro h'; exact absurd h'.symm h

/-- What precedes `mark` in a text that ends with it. -/
def stripSuffix? (mark cs : List Char) : Option (List Char) :=
  (stripPrefix? mark.reverse cs.reverse).map List.reverse

/-! ## Marks inside -/

/-- The parts before and after the first occurrence of `mark`. -/
def splitFirst? (mark : List Char) : List Char → Option (List Char × List Char)
  | [] => if mark = [] then some ([], []) else none
  | c :: cs =>
    match stripPrefix? mark (c :: cs) with
    | some rest => some ([], rest)
    | none => (splitFirst? mark cs).map fun (before, rest) => (c :: before, rest)

theorem append_of_splitFirst? {mark cs before rest : List Char}
    (h : splitFirst? mark cs = some (before, rest)) : cs = before ++ mark ++ rest := by
  induction cs generalizing before rest with
  | nil => by_cases hm : mark = [] <;> simp_all [splitFirst?]
  | cons c cs ih =>
    unfold splitFirst? at h
    split at h
    · rename_i rest' hr
      obtain ⟨rfl, rfl⟩ := by simpa using h
      simpa using stripPrefix?_eq_some_iff.1 hr
    · obtain ⟨⟨b, r⟩, hb, hbr⟩ := Option.map_eq_some_iff.1 h
      obtain ⟨rfl, rfl⟩ := by simpa using hbr
      simpa using ih hb

/-- The parts before and after the last occurrence of `mark`. -/
def splitLast? (mark cs : List Char) : Option (List Char × List Char) :=
  (splitFirst? mark.reverse cs.reverse).map fun (after, before) =>
    (before.reverse, after.reverse)

/-- Whether `mark` occurs in the text. -/
def occursIn (mark cs : List Char) : Bool := (splitFirst? mark cs).isSome

end PolicyDialects.Text
