import Mathlib.Data.List.Nodup
import PolicyDialects.Json.Reader
import PolicyDialects.Proofs.Text.Literals

/-!
# JSON text is read back

The reader undoes the layout, whatever follows a value.

* `Json.Textual` — values that consist of texts, lists, and records with each key
  once.

Results:

* `readPieces_escapeChar`, `readString_literal`: any text comes back from its
  literal.
* `Textual.readValue_prettyChars`: a value is read off the front of a text.
* `Textual.read?_pretty`: the text of a value is read back.
* `Textual.lastWins_eq`, `Textual.isPlain_eq`: nothing in it is dropped or refused.
-/

namespace PolicyDialects.Json

open Text

/-! ## Blanks -/

theorem skipBlanks_of_not_blank {c : Char} (h : isJsonBlank c = false) (cs : List Char) :
    skipBlanks (c :: cs) = c :: cs :=
  List.dropWhile_cons_of_neg (by simp [h])

theorem skipBlanks_newline (level : Nat) (cs : List Char) :
    skipBlanks (newline level ++ cs) = skipBlanks cs := by
  have hblank : ∀ c ∈ newline level, isJsonBlank c = true := by
    intro c hc
    rcases List.mem_cons.mp hc with rfl | hc
    · decide
    · rw [List.eq_of_mem_replicate hc]
      decide
  exact List.dropWhile_append_of_pos hblank

theorem expect_cons {c d : Char} (h : isJsonBlank d = false) (cs : List Char) :
    expect c (d :: cs) = if d = c then some cs else none := by
  rw [expect, skipBlanks_of_not_blank h]

theorem expect_newline (c : Char) (level : Nat) (cs : List Char) :
    expect c (newline level ++ cs) = expect c cs := by
  rw [expect, skipBlanks_newline, expect]

theorem readValue_newline (n level : Nat) (cs : List Char) :
    readValue n (newline level ++ cs) = readValue n cs := by
  rw [readValue.eq_def, readValue.eq_def n cs]
  simp only [skipBlanks_newline]

/-! ## Strings -/

/-- A character stands for itself, or is escaped by one letter, or by its number
in hexadecimal. -/
theorem escapeChar_cases (c : Char) :
    (escapeChar c = [c] ∧ c ≠ '"' ∧ c ≠ '\\' ∧ 0x20 ≤ c.toNat) ∨
    (∃ e, escapeChar c = ['\\', e] ∧ e ≠ 'u' ∧ shortEscape? e = some c) ∨
    (c.toNat < 0x20 ∧
      escapeChar c = ['\\', 'u', '0', '0', hexDigit (c.toNat / 16), hexDigit (c.toNat % 16)]) := by
  have hcode : ∀ {n : Nat}, c.toNat = n → c = Char.ofNat n := fun h => h ▸ (Char.ofNat_toNat c).symm
  unfold escapeChar
  split_ifs with h1 h2 h3 h4 h5 h6 h7 h8
  · exact .inr (.inl ⟨_, rfl, by decide, by rw [h1]; rfl⟩)
  · exact .inr (.inl ⟨_, rfl, by decide, by rw [h2]; rfl⟩)
  · exact .inr (.inl ⟨_, rfl, by decide, by rw [hcode h3]; rfl⟩)
  · exact .inr (.inl ⟨_, rfl, by decide, by rw [hcode h4]; rfl⟩)
  · exact .inr (.inl ⟨_, rfl, by decide, by rw [h5]; rfl⟩)
  · exact .inr (.inl ⟨_, rfl, by decide, by rw [h6]; rfl⟩)
  · exact .inr (.inl ⟨_, rfl, by decide, by rw [h7]; rfl⟩)
  · exact .inr (.inr ⟨h8, rfl⟩)
  · exact .inl ⟨rfl, h1, h2, by omega⟩

/-- The code of a control character is read back. -/
theorem hex4?_control {n : Nat} (h : n < 0x20) :
    hex4? '0' '0' (hexDigit (n / 16)) (hexDigit (n % 16)) = some n := by
  rw [hex4?, hexValue?_hexDigit (by omega), hexValue?_hexDigit (by omega)]
  have hzero : hexValue? '0' = some 0 := rfl
  simp only [hzero, Option.bind_eq_bind, Option.bind_some, Option.pure_def, Option.some.injEq]
  omega

theorem readPieces_escapeChar (c : Char) (cs : List Char) :
    readPieces (escapeChar c ++ cs) =
      (readPieces cs).map fun (ps, rest) => (.char c :: ps, rest) := by
  rcases escapeChar_cases c with ⟨hc, hquote, hback, hcode⟩ | ⟨e, hc, he, hescape⟩ | ⟨hcode, hc⟩
  · rw [hc, List.singleton_append, readPieces.eq_def]
    split
    · contradiction
    · rename_i heq
      exact absurd (List.cons.inj heq).1 hquote
    · rename_i heq
      exact absurd (List.cons.inj heq).1 hback
    · rename_i heq
      exact absurd (List.cons.inj heq).1 hback
    · rename_i heq
      obtain ⟨rfl, rfl⟩ := List.cons.inj heq
      exact if_neg (by simp [hback, hcode])
  · rw [hc, List.cons_append, List.singleton_append, readPieces.eq_def]
    split
    · contradiction
    · rename_i heq
      exact absurd (List.cons.inj heq).1 (by decide)
    · rename_i heq
      exact absurd (List.cons.inj (List.cons.inj heq).2).1 he
    · rename_i heq
      obtain ⟨rfl, rfl⟩ := List.cons.inj (List.cons.inj heq).2
      rw [hescape]
    · rename_i hne heq
      obtain ⟨hback, hrest⟩ := List.cons.inj heq
      exact absurd hrest.symm (hne _ _ hback.symm)
  · have hpiece : pieceOfCode c.toNat = .char c := by
      rw [pieceOfCode, if_neg (by omega), Char.ofNat_toNat]
    rw [hc]
    simp only [List.cons_append, List.nil_append]
    rw [readPieces, hex4?_control hcode]
    simp only [hpiece]

theorem readString_literal (s : String) (cs : List Char) :
    readString (s.toList.flatMap escapeChar ++ '"' :: cs) = some (some s, cs) := by
  have hpieces : ∀ t : List Char, readPieces (t.flatMap escapeChar ++ '"' :: cs) =
      some (t.map .char, cs) := by
    intro t
    induction t with
    | nil => rfl
    | cons c t ih =>
      rw [List.flatMap_cons, List.append_assoc, readPieces_escapeChar, ih]
      rfl
  have hassemble : ∀ t : List Char, assemble (t.map .char) = some t := by
    intro t
    induction t with
    | nil => rfl
    | cons c t ih =>
      rw [List.map_cons, assemble, ih]
      rfl
  rw [readString, hpieces, Option.map_some]
  dsimp only
  rw [hassemble, Option.map_some, String.ofList_toList]

/-! ## Lists -/

section

variable {α : Type} {close : Char} {item : List Char → Option (α × List Char)}
  {print : α → List Char} {level : Nat}

/-- The items after the first one are read up to the closing bracket. -/
theorem readMore_flatMap (hblank : isJsonBlank close = false) (hcomma : close ≠ ',')
    {xs : List α} (h : ∀ x ∈ xs, ∀ cs, item (newline level ++ print x ++ cs) = some (x, cs))
    (outer : Nat) (cs : List Char) :
    readMore close item
        (xs.flatMap (fun x => ',' :: (newline level ++ print x)) ++
          (newline outer ++ close :: cs)) = some (xs, cs) := by
  induction xs with
  | nil =>
    rw [List.flatMap_nil, List.nil_append, readMore, skipBlanks_newline,
      skipBlanks_of_not_blank hblank]
    exact if_pos rfl
  | cons x xs ih =>
    obtain ⟨hx, hxs⟩ := List.forall_mem_cons.mp h
    rw [List.flatMap_cons, List.cons_append, List.cons_append, List.append_assoc, readMore,
      skipBlanks_of_not_blank rfl]
    dsimp only
    rw [if_neg hcomma.symm, if_pos rfl, hx]
    dsimp only
    rw [if_pos, ih hxs, Option.map_some]
    simp only [List.length_append, List.length_cons]
    omega

/-- A list that is not empty is read up to the closing bracket. -/
theorem readList_flatMap (hblank : isJsonBlank close = false) (hcomma : close ≠ ',') {x : α}
    {xs : List α}
    (hopen : ∀ cs, expect close (newline level ++ print x ++ cs) = none)
    (h : ∀ y ∈ x :: xs, ∀ cs, item (newline level ++ print y ++ cs) = some (y, cs))
    (outer : Nat) (cs : List Char) :
    readList close item (newline level ++ print x ++
        (xs.flatMap (fun y => ',' :: (newline level ++ print y)) ++
          (newline outer ++ close :: cs))) = some (x :: xs, cs) := by
  obtain ⟨hx, hxs⟩ := List.forall_mem_cons.mp h
  rw [readList, hopen]
  dsimp only
  rw [hx]
  dsimp only
  rw [readMore_flatMap hblank hcomma hxs, Option.map_some]

end

theorem stringLiteral_some (s : String) :
    stringLiteral (some s) = '"' :: (s.toList.flatMap escapeChar ++ ['"']) := rfl

theorem prettyItems_eq (level : Nat) (items : List Json) :
    prettyItems level items =
      items.flatMap fun j => ',' :: (newline level ++ prettyChars level j) := by
  induction items with
  | nil => rfl
  | cons j items ih => rw [prettyItems, ih, List.flatMap_cons, List.cons_append]

theorem prettyMembers_eq (level : Nat) (members : List (Option String × Json)) :
    prettyMembers level members =
      members.flatMap fun m => ',' :: (newline level ++ prettyMember level m) := by
  induction members with
  | nil => rfl
  | cons m members ih => rw [prettyMembers, ih, List.flatMap_cons, List.cons_append]

/-! ## Depth -/

theorem depthItems_le_iff {items : List Json} {d : Nat} :
    depthItems items ≤ d ↔ ∀ j ∈ items, j.depth ≤ d := by
  induction items with
  | nil => simp [depthItems]
  | cons i items ih => rw [depthItems, Nat.max_le, ih, List.forall_mem_cons]

theorem depthMembers_le_iff {members : List (Option String × Json)} {d : Nat} :
    depthMembers members ≤ d ↔ ∀ m ∈ members, m.2.depth ≤ d := by
  induction members with
  | nil => simp [depthMembers]
  | cons m members ih => rw [depthMembers, Nat.max_le, ih, List.forall_mem_cons, depthMember]

/-! ## Values -/

/-- Values that consist of texts, lists of values, and records with each key once,
at most `d` levels of them. -/
inductive Textual : (d : Nat) → Json → Prop where
  | text (d : Nat) (s : String) : Textual d (.str s)
  | list {d : Nat} {items : List Json} (h : ∀ j ∈ items, Textual d j) :
      Textual (d + 1) (.array items)
  | record {d : Nat} {members : List (String × Json)} (hkeys : (members.map (·.1)).Nodup)
      (h : ∀ m ∈ members, Textual d m.2) : Textual (d + 1) (.record members)

theorem Textual.depth_le {d : Nat} {j : Json} (h : Textual d j) : j.depth ≤ d := by
  induction h with
  | text d s => exact Nat.zero_le d
  | list h ih =>
    rw [depth]
    exact Nat.succ_le_succ (depthItems_le_iff.mpr ih)
  | record hkeys h ih =>
    rw [Json.record, depth]
    exact Nat.succ_le_succ (depthMembers_le_iff.mpr (List.forall_mem_map.mpr ih))

theorem readValue_quote (n : Nat) (cs : List Char) :
    readValue n ('"' :: cs) = (readString cs).map fun (s, rest) => (.string s, rest) := by
  rw [readValue.eq_def]
  rfl

theorem readValue_bracket (n : Nat) (cs : List Char) :
    readValue (n + 1) ('[' :: cs) =
      (readList ']' (readValue n) cs).map fun (items, rest) => (.array items, rest) := by
  rw [readValue.eq_def]
  rfl

theorem readValue_brace (n : Nat) (cs : List Char) :
    readValue (n + 1) ('\x7b' :: cs) =
      (readList '\x7d' (readMember (readValue n)) cs).map
        fun (members, rest) => (.object members, rest) := by
  rw [readValue.eq_def]
  rfl

/-- Where a value is read, no bracket closes. -/
theorem expect_eq_none_of_readValue {n : Nat} {cs : List Char} {x : Json × List Char}
    (h : readValue n cs = some x) : expect ']' cs = none := by
  rw [expect]
  cases hcs : skipBlanks cs with
  | nil => rfl
  | cons d rest =>
    refine if_neg ?_
    rintro rfl
    rw [readValue.eq_def] at h
    dsimp only at h
    rw [hcs] at h
    cases h

theorem readMember_prettyMember {n level : Nat} {j : Json}
    (h : ∀ cs, readValue n (prettyChars level j ++ cs) = some (j, cs)) (key : String)
    (cs : List Char) :
    readMember (readValue n) (newline level ++ prettyMember level (some key, j) ++ cs) =
      some ((some key, j), cs) := by
  have hvalue : readValue n (' ' :: (prettyChars level j ++ cs)) = some (j, cs) := by
    rw [readValue.eq_def, ← h cs, readValue.eq_def n (prettyChars level j ++ cs)]
    rfl
  rw [readMember, prettyMember, stringLiteral_some]
  simp only [List.append_assoc, List.cons_append, List.nil_append]
  rw [expect_newline, expect_cons rfl, if_pos rfl]
  simp only [Option.bind_eq_bind, Option.bind_some]
  rw [readString_literal]
  simp only [Option.bind_some]
  rw [expect_cons rfl, if_pos rfl]
  simp only [Option.bind_some]
  rw [hvalue]
  rfl

theorem readValue_array {n level : Nat} {items : List Json}
    (h : ∀ j ∈ items, ∀ cs, readValue n (prettyChars (level + 1) j ++ cs) = some (j, cs))
    (cs : List Char) :
    readValue (n + 1) (prettyChars level (.array items) ++ cs) = some (.array items, cs) := by
  cases items with
  | nil =>
    rw [prettyChars, List.cons_append, readValue_bracket]
    rfl
  | cons j items =>
    have hitem : ∀ i ∈ j :: items, ∀ cs,
        readValue n (newline (level + 1) ++ prettyChars (level + 1) i ++ cs) = some (i, cs) := by
      intro i hi cs
      rw [List.append_assoc, readValue_newline, h i hi]
    have hread := readList_flatMap rfl (by decide)
      (fun cs => expect_eq_none_of_readValue (hitem j List.mem_cons_self cs)) hitem level cs
    rw [← prettyItems_eq] at hread
    rw [prettyChars, List.cons_append, readValue_bracket]
    simp only [List.append_assoc, List.cons_append, List.nil_append] at hread ⊢
    rw [hread, Option.map_some]

theorem record_eq (members : List (String × Json)) :
    record members = .object (members.map fun m => (some m.1, m.2)) := rfl

theorem readValue_record {n level : Nat} {members : List (String × Json)}
    (h : ∀ m ∈ members, ∀ cs, readValue n (prettyChars (level + 1) m.2 ++ cs) = some (m.2, cs))
    (cs : List Char) :
    readValue (n + 1) (prettyChars level (.record members) ++ cs) = some (.record members, cs) := by
  cases members with
  | nil =>
    rw [record_eq, List.map_nil, prettyChars, List.cons_append, readValue_brace]
    rfl
  | cons m members =>
    have hmember : ∀ e ∈ (m :: members).map (fun m => (some m.1, m.2)), ∀ cs,
        readMember (readValue n) (newline (level + 1) ++ prettyMember (level + 1) e ++ cs) =
          some (e, cs) := by
      intro e he cs
      obtain ⟨⟨key, value⟩, hmem, rfl⟩ := List.mem_map.mp he
      exact readMember_prettyMember (h _ hmem) key cs
    have hopen : ∀ cs, expect '\x7d'
        (newline (level + 1) ++ prettyMember (level + 1) (some m.1, m.2) ++ cs) = none := by
      intro cs
      rw [List.append_assoc, expect_newline]
      rfl
    have hread := readList_flatMap rfl (by decide) hopen hmember level cs
    rw [← prettyMembers_eq] at hread
    rw [record_eq, List.map_cons, prettyChars, List.cons_append, readValue_brace]
    simp only [List.append_assoc, List.cons_append, List.nil_append] at hread ⊢
    rw [hread, Option.map_some]

/-- A value is read off the front of a text. -/
theorem Textual.readValue_prettyChars {d : Nat} {j : Json} (h : Textual d j) {n : Nat}
    (hn : j.depth ≤ n) (level : Nat) (cs : List Char) :
    readValue n (prettyChars level j ++ cs) = some (j, cs) := by
  induction h generalizing n level cs with
  | text d s =>
    rw [str, prettyChars, stringLiteral_some, List.cons_append, List.append_assoc,
      List.singleton_append, readValue_quote, readString_literal, Option.map_some]
  | @list d items h ih =>
    rw [depth] at hn
    obtain ⟨n, rfl⟩ := Nat.exists_eq_succ_of_ne_zero (Nat.ne_zero_of_lt hn)
    have hitems := depthItems_le_iff.mp (Nat.le_of_succ_le_succ hn)
    exact readValue_array (fun i hi => ih i hi (hitems i hi) (level + 1)) cs
  | @record d members hkeys h ih =>
    rw [Json.record, depth] at hn
    obtain ⟨n, rfl⟩ := Nat.exists_eq_succ_of_ne_zero (Nat.ne_zero_of_lt hn)
    have hmembers := depthMembers_le_iff.mp (Nat.le_of_succ_le_succ hn)
    exact readValue_record
      (fun m hm => ih m hm (hmembers _ (List.mem_map_of_mem hm)) (level + 1)) cs

/-! ## Whole texts -/

mutual

/-- A text has a character for each bracket. -/
theorem depth_le_length_prettyChars (level : Nat) :
    ∀ j : Json, j.depth ≤ (prettyChars level j).length
  | .null | .bool _ | .number _ | .string _ => Nat.zero_le _
  | .array [] => by
    simp [depth, depthItems, prettyChars]
  | .array (item :: items) => by
    have hitem := depth_le_length_prettyChars (level + 1) item
    have hitems := depthItems_le_length_prettyItems (level + 1) items
    simp only [depth, depthItems, prettyChars, List.length_cons, List.length_append]
    omega
  | .object [] => by
    simp [depth, depthMembers, prettyChars]
  | .object ((key, value) :: members) => by
    have hvalue := depth_le_length_prettyChars (level + 1) value
    have hmembers := depthMembers_le_length_prettyMembers (level + 1) members
    simp only [depth, depthMembers, depthMember, prettyChars, prettyMember, List.length_cons,
      List.length_append]
    omega

theorem depthItems_le_length_prettyItems (level : Nat) :
    ∀ items : List Json, depthItems items ≤ (prettyItems level items).length
  | [] => Nat.zero_le _
  | item :: items => by
    have hitem := depth_le_length_prettyChars level item
    have hitems := depthItems_le_length_prettyItems level items
    simp only [depthItems, prettyItems, List.length_cons, List.length_append]
    omega

theorem depthMembers_le_length_prettyMembers (level : Nat) :
    ∀ members : List (Option String × Json),
      depthMembers members ≤ (prettyMembers level members).length
  | [] => Nat.zero_le _
  | (key, value) :: members => by
    have hvalue := depth_le_length_prettyChars level value
    have hmembers := depthMembers_le_length_prettyMembers level members
    simp only [depthMembers, depthMember, prettyMembers, prettyMember, List.length_cons,
      List.length_append]
    omega

end

/-- The text of a value is read back. -/
theorem Textual.read?_pretty {d : Nat} {j : Json} (h : Textual d j) : read? j.pretty = some j := by
  have hread := h.readValue_prettyChars (depth_le_length_prettyChars 0 j) 0 []
  rw [List.append_nil] at hread
  rw [read?, pretty, String.toList_ofList, hread]
  rfl

/-! ## Nothing is dropped -/

theorem lastWinsItems_eq_map (items : List Json) : lastWinsItems items = items.map lastWins := by
  induction items with
  | nil => rfl
  | cons j items ih => rw [lastWinsItems, ih, List.map_cons]

theorem lastWinsMembers_eq_map (members : List (Option String × Json)) :
    lastWinsMembers members = members.map lastWinsMember := by
  induction members with
  | nil => rfl
  | cons m members ih => rw [lastWinsMembers, ih, List.map_cons]

theorem isPlainItems_eq_all (items : List Json) : isPlainItems items = items.all isPlain := by
  induction items with
  | nil => rfl
  | cons j items ih => rw [isPlainItems, ih, List.all_cons]

theorem isPlainMembers_eq_all (members : List (Option String × Json)) :
    isPlainMembers members = members.all isPlainMember := by
  induction members with
  | nil => rfl
  | cons m members ih => rw [isPlainMembers, ih, List.all_cons]

theorem dropOverridden_eq_self {α : Type} {members : List (Option String × α)}
    (h : (members.map (·.1)).Nodup) : dropOverridden members = members := by
  induction members with
  | nil => rfl
  | cons m members ih =>
    obtain ⟨hkey, hkeys⟩ := List.nodup_cons.mp h
    rw [dropOverridden, if_neg, ih hkeys]
    rw [Bool.not_eq_true, List.any_eq_false]
    intro later hlater hsame
    exact hkey (List.mem_map.mpr ⟨later, hlater, by simpa using hsame⟩)

/-- Every key counts. -/
theorem Textual.lastWins_eq {d : Nat} {j : Json} (h : Textual d j) : j.lastWins = j := by
  induction h with
  | text d s => rfl
  | list h ih =>
    rw [lastWins, lastWinsItems_eq_map, List.map_congr_left ih, List.map_id']
  | @record d members hkeys h ih =>
    have hmembers : members.map (fun m => (some m.1, m.2.lastWins)) =
        members.map fun m => (some m.1, m.2) :=
      List.map_congr_left fun m hm => by rw [ih m hm]
    rw [Json.record, lastWins, lastWinsMembers_eq_map, List.map_map, Function.comp_def]
    dsimp only [lastWinsMember]
    rw [hmembers, dropOverridden_eq_self]
    have hsome := hkeys.map fun _ _ => Option.some.inj
    rwa [List.map_map] at hsome ⊢

/-- Every string and key has a text. -/
theorem Textual.isPlain_eq {d : Nat} {j : Json} (h : Textual d j) : j.isPlain = true := by
  induction h with
  | text d s => rfl
  | list h ih =>
    rw [isPlain, isPlainItems_eq_all, List.all_eq_true]
    exact ih
  | record hkeys h ih =>
    rw [Json.record, isPlain, isPlainMembers_eq_all, List.all_map, List.all_eq_true]
    exact ih

end PolicyDialects.Json
