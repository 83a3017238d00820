import Mathlib.Data.List.DropRight
import PolicyDialects.Text.Chars
import PolicyDialects.Text.Search
import PolicyDialects.Proofs.Text.Literals

/-!
# Ends and marks of texts

Results:

* `trim_trim`, `trim_append_blanks`: blanks at the ends, and nothing else, do not
  count.
* `splitFirst?_append`, `splitLast?_append`: a text is cut at a mark if one of
  its characters does not occur on the side that is searched first.
* `splitLast?_eq_none`: without that character there is nothing to cut at.
* `occursIn_iff`, `splitFirst?_eq_none_iff`, `splitLast?_eq_none_iff`: there is
  something to cut at exactly if the mark is a part of the text.
* `splitFirst?_cons`, `splitLast?_cons`: both searches go on behind a character at
  which no mark starts.
-/

namespace PolicyDialects.Text

/-! ## Ends -/

/-- A text that is its own trim has no blank at either end. -/
theorem dropWhile_of_trim {cs : List Char} (h : trim cs = cs) :
    cs.dropWhile isBlank = cs ∧ cs.reverse.dropWhile isBlank = cs.reverse := by
  have hlength : (trim cs).length ≤ (cs.dropWhile isBlank).length := by
    rw [trim, List.length_reverse]
    exact Nat.le_trans (List.dropWhile_suffix _).length_le (Nat.le_of_eq List.length_reverse)
  rw [h] at hlength
  have hfront : cs.dropWhile isBlank = cs :=
    (List.dropWhile_suffix _).eq_of_length_le hlength
  refine ⟨hfront, ?_⟩
  rw [trim, hfront] at h
  exact List.reverse_inj.mp (h.trans (List.reverse_reverse cs).symm)

/-- What is left of a text has no blank at either end. -/
theorem trim_trim (cs : List Char) : trim (trim cs) = trim cs := by
  have htrim : ∀ ds, trim ds = (ds.dropWhile isBlank).rdropWhile isBlank := fun _ => rfl
  have hfront : (trim cs).dropWhile isBlank = trim cs := by
    rw [htrim]
    refine List.dropWhile_eq_self_iff.mpr fun hlength => ?_
    have hkept := List.rdropWhile_prefix isBlank (cs.dropWhile isBlank)
    rw [hkept.getElem hlength]
    exact List.dropWhile_get_zero_not isBlank cs _
  rw [htrim, hfront, htrim, List.rdropWhile_idempotent]

theorem trimmed_trimmed (s : String) : trimmed (trimmed s) = trimmed s := by
  rw [trimmed, trimmed, String.toList_ofList, trim_trim]

/-- A text with a character at each end that is no blank. -/
theorem trim_eq_self {cs : List Char} (hfront : Stops isBlank cs)
    (hback : Stops isBlank cs.reverse) : trim cs = cs := by
  have hdrop : ∀ {ds : List Char}, Stops isBlank ds → ds.dropWhile isBlank = ds := fun h =>
    dropWhile_append_stops (List.forall_mem_nil _) h
  rw [trim, hdrop hfront, hdrop hback, List.reverse_reverse]

/-- Blanks around a text without any at its ends are dropped. -/
theorem trim_append_blanks {before cs after : List Char}
    (hbefore : ∀ c ∈ before, isBlank c = true) (hafter : ∀ c ∈ after, isBlank c = true)
    (h : trim cs = cs) : trim (before ++ cs ++ after) = cs := by
  obtain ⟨hfront, hback⟩ := dropWhile_of_trim h
  have hend : after.reverse.dropWhile isBlank = [] :=
    List.dropWhile_eq_nil_iff.mpr fun c hc => hafter c (List.mem_reverse.mp hc)
  rw [List.append_assoc, trim, List.dropWhile_append_of_pos hbefore, List.dropWhile_append, hfront]
  cases cs with
  | nil =>
    have hnone : after.dropWhile isBlank = [] := List.dropWhile_eq_nil_iff.mpr hafter
    rw [List.isEmpty_nil, if_pos rfl, hnone]
    rfl
  | cons c cs =>
    rw [List.isEmpty_cons, if_neg Bool.false_ne_true, List.reverse_append, List.dropWhile_append,
      hend, List.isEmpty_nil, if_pos rfl, hback, List.reverse_reverse]

/-- A text is what is left of it, between blanks. -/
theorem exists_blanks_trim (cs : List Char) :
    ∃ before after, cs = before ++ (trim cs ++ after) ∧ (∀ c ∈ before, isBlank c = true) ∧
      ∀ c ∈ after, isBlank c = true := by
  have hfront := List.takeWhile_append_dropWhile (p := isBlank) (l := cs)
  have hback := congrArg List.reverse
    (List.takeWhile_append_dropWhile (p := isBlank) (l := (cs.dropWhile isBlank).reverse))
  rw [List.reverse_append, List.reverse_reverse] at hback
  refine ⟨cs.takeWhile isBlank, ((cs.dropWhile isBlank).reverse.takeWhile isBlank).reverse, ?_,
    fun c hc => List.mem_takeWhile_imp hc,
    fun c hc => List.mem_takeWhile_imp (List.mem_reverse.mp hc)⟩
  rw [trim, hback, hfront]

theorem mem_of_mem_trim {cs : List Char} {c : Char} (h : c ∈ trim cs) : c ∈ cs := by
  rw [trim, List.mem_reverse] at h
  have hmem := (List.dropWhile_suffix _).subset h
  rw [List.mem_reverse] at hmem
  exact (List.dropWhile_suffix _).subset hmem

/-- A mark that a text starts with stands in front of any character that is not
in it. -/
theorem stripPrefix?_append_cons_eq_none_iff {mark : List Char} {c : Char} (h : c ∉ mark)
    {before after : List Char} :
    stripPrefix? mark (before ++ c :: after) = none ↔ stripPrefix? mark before = none := by
  induction mark generalizing before with
  | nil => simp [stripPrefix?]
  | cons m mark ih =>
    rw [List.mem_cons, not_or] at h
    cases before with
    | nil => simp [stripPrefix?, Ne.symm h.1]
    | cons b before =>
      rw [List.cons_append, stripPrefix?, stripPrefix?]
      split_ifs
      · exact ih h.2
      · rfl

theorem stripPrefix?_eq_none_iff {mark cs : List Char} :
    stripPrefix? mark cs = none ↔ ¬mark <+: cs := by
  rw [← Option.not_isSome_iff_eq_none, Option.isSome_iff_exists]
  simp only [stripPrefix?_eq_some_iff]
  exact not_congr ⟨fun ⟨rest, h⟩ => ⟨rest, h.symm⟩, fun ⟨rest, h⟩ => ⟨rest, h.symm⟩⟩

theorem stripPrefix?_concat {mark cs : List Char} {c : Char} (h : mark ≠ cs ++ [c]) :
    stripPrefix? mark (cs ++ [c]) = (stripPrefix? mark cs).map (· ++ [c]) := by
  induction mark generalizing cs with
  | nil => rfl
  | cons m mark ih =>
    cases cs with
    | nil =>
      rw [List.nil_append, stripPrefix?, stripPrefix?]
      split_ifs with hm
      · cases mark with
        | nil => exact absurd (by rw [hm]; rfl) h
        | cons m' mark => rfl
      · rfl
    | cons x cs =>
      rw [List.cons_append, stripPrefix?, stripPrefix?]
      split_ifs with hm
      · exact ih fun heq => h (by rw [hm, heq]; rfl)
      · rfl

/-! ## Marks -/

section

variable {c : Char} {mark cs init tail before after : List Char}

theorem takeWhile_ne_append (h : c ∉ before) :
    (before ++ c :: after).takeWhile (· != c) = before := by
  apply takeWhile_append_stops
  · intro d hd
    rw [bne_iff_ne]
    rintro rfl
    exact h hd
  · exact stops_cons (by simp) after

theorem splitFirst?_of_stripPrefix? {mark cs rest : List Char}
    (h : stripPrefix? mark cs = some rest) : splitFirst? mark cs = some ([], rest) := by
  cases cs with
  | nil =>
    have hnil := stripPrefix?_eq_some_iff.mp h
    obtain ⟨hmark, hrest⟩ := List.append_eq_nil_iff.mp hnil.symm
    rw [hmark, hrest]
    rfl
  | cons c cs => rw [splitFirst?, h]

theorem occursIn_append (mark before after : List Char) :
    occursIn mark (before ++ mark ++ after) = true := by
  unfold occursIn
  induction before with
  | nil =>
    rw [List.nil_append, splitFirst?_of_stripPrefix? (stripPrefix?_eq_some_iff.mpr rfl)]
    rfl
  | cons b before ih =>
    rw [List.cons_append, List.cons_append, splitFirst?]
    split
    · rfl
    · rw [Option.isSome_map, ih]

theorem occursIn_iff : occursIn mark cs = true ↔ mark <:+: cs := by
  constructor
  · intro h
    obtain ⟨⟨before, rest⟩, hsplit⟩ := Option.isSome_iff_exists.mp h
    exact ⟨before, rest, (append_of_splitFirst? hsplit).symm⟩
  · rintro ⟨before, rest, rfl⟩
    exact occursIn_append mark before rest

theorem splitFirst?_eq_none_iff : splitFirst? mark cs = none ↔ ¬mark <:+: cs := by
  rw [← occursIn_iff, occursIn, Option.isSome_iff_ne_none, not_not]

theorem splitLast?_eq_none_iff : splitLast? mark cs = none ↔ ¬mark <:+: cs := by
  rw [splitLast?, Option.map_eq_none_iff, splitFirst?_eq_none_iff, List.reverse_infix]

/-- The text is cut at the first mark if a character of the mark does not occur
before it. -/
theorem splitFirst?_append (h : c ∉ before ++ init) :
    splitFirst? (init ++ c :: tail) (before ++ (init ++ c :: tail) ++ after) =
      some (before, after) := by
  induction before with
  | nil => exact splitFirst?_of_stripPrefix? (stripPrefix?_eq_some_iff.mpr rfl)
  | cons b before ih =>
    rw [List.cons_append, List.mem_cons, not_or] at h
    have hskip : stripPrefix? (init ++ c :: tail) (b :: (before ++ (init ++ c :: tail) ++ after)) =
        none := by
      rw [Option.eq_none_iff_forall_ne_some]
      intro rest hrest
      -- the character would stand further ahead than it does
      have hearly := congrArg (List.takeWhile (· != c)) (stripPrefix?_eq_some_iff.mp hrest)
      have hsplit : b :: (before ++ (init ++ c :: tail) ++ after) =
          b :: (before ++ init) ++ c :: (tail ++ after) := by simp
      have hlong : c ∉ b :: (before ++ init) := by
        rw [List.mem_cons, not_or]
        exact h
      have hshort : c ∉ init := fun hmem => h.2 (List.mem_append_right before hmem)
      rw [hsplit, List.append_assoc, takeWhile_ne_append hlong, List.cons_append,
        takeWhile_ne_append hshort] at hearly
      have hlength := congrArg List.length hearly
      rw [List.length_cons, List.length_append] at hlength
      omega
    rw [List.cons_append, List.cons_append, splitFirst?, hskip]
    dsimp only
    rw [ih h.2, Option.map_some]

theorem append_of_splitLast? (h : splitLast? mark cs = some (before, after)) :
    cs = before ++ mark ++ after := by
  obtain ⟨⟨behind, front⟩, hsplit, heq⟩ := Option.map_eq_some_iff.mp h
  obtain ⟨rfl, rfl⟩ := Prod.mk.inj heq
  have hreverse := congrArg List.reverse (append_of_splitFirst? hsplit)
  simpa using hreverse

/-- The text is cut at the last mark if a character of the mark does not occur
behind it. -/
theorem splitLast?_append (h : c ∉ tail ++ after) :
    splitLast? (init ++ c :: tail) (before ++ (init ++ c :: tail) ++ after) =
      some (before, after) := by
  have hreverse : c ∉ after.reverse ++ tail.reverse := by
    rwa [← List.reverse_append, List.mem_reverse]
  have hcut : splitFirst? (tail.reverse ++ c :: init.reverse)
      (after.reverse ++ (tail.reverse ++ c :: init.reverse) ++ before.reverse) =
        some (after.reverse, before.reverse) := splitFirst?_append hreverse
  unfold splitLast?
  simp only [List.reverse_append, List.reverse_cons, List.append_assoc, List.cons_append,
    List.nil_append] at hcut ⊢
  rw [hcut, Option.map_some, List.reverse_reverse, List.reverse_reverse]

theorem splitLast?_eq_none (hc : c ∈ mark) (h : c ∉ cs) : splitLast? mark cs = none :=
  splitLast?_eq_none_iff.mpr fun hmark => h (hmark.subset hc)

/-! ## Searches from the front -/

/-- The search goes on behind a character at which no mark starts. -/
theorem splitFirst?_cons (h : ¬mark <+: c :: cs) :
    splitFirst? mark (c :: cs) = (splitFirst? mark cs).map fun p => (c :: p.1, p.2) := by
  rw [splitFirst?, stripPrefix?_eq_none_iff.mpr h]

/-- A character with which no mark ends is not searched. -/
theorem splitFirst?_concat (h : ¬mark <:+ cs ++ [c]) :
    splitFirst? mark (cs ++ [c]) = (splitFirst? mark cs).map fun p => (p.1, p.2 ++ [c]) := by
  have hne : mark ≠ cs ++ [c] := fun heq => h (heq ▸ List.suffix_rfl)
  have hstrip := stripPrefix?_concat hne
  induction cs with
  | nil =>
    cases mark with
    | nil => exact absurd List.nil_suffix h
    | cons m mark =>
      have hnil : splitFirst? (m :: mark) [] = none := rfl
      rw [List.nil_append] at hstrip ⊢
      rw [hnil, splitFirst?, hstrip]
      rfl
  | cons x cs ih =>
    have hinner : ¬mark <:+ cs ++ [c] := fun hs => h (hs.trans (List.suffix_cons x _))
    have hne' : mark ≠ cs ++ [c] := fun heq => hinner (heq ▸ List.suffix_rfl)
    rw [List.cons_append] at hstrip ⊢
    rw [splitFirst?, hstrip, splitFirst?]
    cases hx : stripPrefix? mark (x :: cs) with
    | some rest => rfl
    | none =>
      rw [ih hinner hne' (stripPrefix?_concat hne')]
      simp only [Option.map_none, Option.map_map]
      rfl

/-- The same from the other side: the last mark is behind such a character. -/
theorem splitLast?_cons (h : ¬mark <+: c :: cs) :
    splitLast? mark (c :: cs) = (splitLast? mark cs).map fun p => (c :: p.1, p.2) := by
  have hreverse : ¬mark.reverse <:+ cs.reverse ++ [c] := by
    rwa [← List.reverse_cons, List.reverse_suffix]
  rw [splitLast?, splitLast?, List.reverse_cons, splitFirst?_concat hreverse, Option.map_map,
    Option.map_map]
  simp [Function.comp_def]

/-- A search that goes on behind characters at which no mark starts goes on behind a
word without `c` and the `c` after it, for a mark that starts with two `c`s. -/
theorem search_append (search : List Char → Option (List Char × List Char)) {tail word : List Char}
    (hsearch : ∀ d ds, ¬c :: c :: tail <+: d :: ds →
      search (d :: ds) = (search ds).map fun p => (d :: p.1, p.2))
    (hword : c ∉ word) (hcs : cs.head? ≠ some c) :
    search (word ++ c :: cs) = (search cs).map fun p => (word ++ c :: p.1, p.2) := by
  induction word with
  | nil =>
    refine hsearch c cs fun hprefix => hcs ?_
    obtain ⟨rest, hrest⟩ := hprefix
    rw [← (List.cons.inj hrest).2]
    rfl
  | cons d ds ih =>
    rw [List.mem_cons, not_or] at hword
    have hskip : ¬c :: c :: tail <+: d :: (ds ++ c :: cs) := fun hprefix => by
      obtain ⟨rest, hrest⟩ := hprefix
      exact hword.1 (List.cons.inj hrest).1
    rw [List.cons_append, hsearch d _ hskip, ih hword.2, Option.map_map]
    rfl

end

end PolicyDialects.Text
