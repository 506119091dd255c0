import Chronicle.Proofs.Json.Acceptance
import Chronicle.Proofs.Json.Doubles
import Chronicle.Proofs.Json.TooDeep

/-!
# What is read from a text that was written

Every value is read from its text if the levels are enough for it, and found too deep if not (`readWithin_write_eq`). It
comes back as it was, but for doubles, which may come back as their neighbours (`Json.reread`): part by part
(`parts_reread`), and as deep as before (`depth_reread`). An object that repeats names has a text as well, and is read
from it with each name once (`read_text_object`).
-/

namespace Chronicle.Json

open Text (Symbol symbolsOf symbolsOf_append)

/-- A double as it is read from its text. -/
def Double.reread (x : Double) : Double :=
  match readNumber (symbolsOf x.text) with
  | .ok (.double y, _) => y
  | _ => x

mutual

/-- A value as it is read from its text. -/
def reread : Json → Json
  | .double x => .double x.reread
  | .array items => .array (rereadItems items)
  | .object members => .object (rereadMembers members)
  | v => v

/-- Each item as it is read. -/
def rereadItems : List Json → List Json
  | [] => []
  | v :: rest => reread v :: rereadItems rest

/-- Each member with its value as it is read. -/
def rereadMembers : List (String × Json) → List (String × Json)
  | [] => []
  | (k, v) :: rest => (k, reread v) :: rereadMembers rest

end

theorem rereadItems_eq (items : List Json) : rereadItems items = items.map reread := by
  induction items with
  | nil => rfl
  | cons v rest ih => rw [rereadItems, ih, List.map_cons]

theorem rereadMembers_eq (members : List (String × Json)) :
    rereadMembers members = members.map fun m => (m.1, m.2.reread) := by
  induction members with
  | nil => rfl
  | cons m rest ih => rw [rereadMembers, ih, List.map_cons]

/-! ## What stays -/

/-- The parts are read one by one. -/
theorem parts_reread (v : Json) : v.reread.parts = v.parts.map reread := by
  induction v using Json.induct with
  | array items ih =>
    have hitems : partsOfItems (rereadItems items) = (partsOfItems items).map reread := by
      rw [partsOfItems_eq, partsOfItems_eq, rereadItems_eq, List.flatMap_map, List.map_flatMap]
      exact List.flatMap_congr ih
    rw [reread, parts, parts, hitems, List.map_cons, reread]
  | object members ih =>
    have hmembers : partsOfMembers (rereadMembers members) = (partsOfMembers members).map reread := by
      rw [partsOfMembers_eq, partsOfMembers_eq, rereadMembers_eq, List.flatMap_map, List.map_flatMap]
      exact List.flatMap_congr ih
    rw [reread, parts, parts, hmembers, List.map_cons, reread]
  | _ => rfl

theorem depth_reread (v : Json) : v.reread.depth = v.depth := by
  induction v using Json.induct with
  | array items ih =>
    have hitems (n : Nat) : depthOfItems (rereadItems items) ≤ n ↔ depthOfItems items ≤ n := by
      rw [rereadItems_eq, depthOfItems_le_iff, depthOfItems_le_iff, List.forall_mem_map]
      exact forall₂_congr fun v hv => by rw [ih v hv]
    rw [reread, depth, depth, le_antisymm ((hitems _).2 le_rfl) ((hitems _).1 le_rfl)]
  | object members ih =>
    have hmembers (n : Nat) : depthOfMembers (rereadMembers members) ≤ n ↔ depthOfMembers members ≤ n := by
      rw [rereadMembers_eq, depthOfMembers_le_iff, depthOfMembers_le_iff, List.forall_mem_map]
      exact forall₂_congr fun m hm => by rw [ih m hm]
    rw [reread, depth, depth, le_antisymm ((hmembers _).2 le_rfl) ((hmembers _).1 le_rfl)]
  | _ => rfl

/-! ## The texts of scalars -/

theorem Double.exists_numeral_reread (x : Double) : ∃ n, NumeralText x.text n ∧ n.value? = some (.double x.reread) := by
  obtain ⟨n, y, ht, hy⟩ := x.exists_numeral
  have hread := readNumber_complete ht hy .nil
  rw [List.append_nil] at hread
  refine ⟨n, ht, ?_⟩
  rw [Double.reread, hread]
  exact hy

theorem Integer.exists_numeral (i : Integer) : ∃ n, NumeralText i.text n ∧ n.value? = some (.integer i) := by
  have hread := readNumeral_signed i.val .nil
  rw [List.append_nil] at hread
  refine ⟨_, numeralText_of_readNumeral hread, ?_⟩
  simp only [Numeral.value?, integer?_signed]

/-- A string in quotes is a text of it. -/
theorem exists_stringText (s : String) : ∃ us, StringText (s.toList.flatMap escape) us ∧ Spells us s.toList := by
  obtain ⟨t, us, cs, ht, htext, hspells, hs⟩ := readString_eq_ok_iff.1 (readString_quoted s [])
  rw [List.append_nil, symbolsOf_append] at ht
  obtain rfl := List.map_inj_right (fun _ _ => Option.some.inj) |>.1 (List.append_cancel_right ht)
  subst hs
  rw [String.toList_ofList] at htext ⊢
  exact ⟨us, htext, hspells⟩

/-! ## The texts of values -/

section

variable {levels : Nat}

/-- The text behind an opening bracket. -/
theorem separated_writeItems {v : Json} {rest : List Json}
    (h : ∀ u ∈ v :: rest, ValueText .standard levels (write u) u.reread) :
    ∃ t, write v ++ writeItems rest = t ++ [']'] ∧
      Separated (Around (ValueText .standard levels)) t ((v :: rest).map reread) := by
  induction rest generalizing v with
  | nil => exact ⟨write v, rfl, .one (.of (h v List.mem_cons_self))⟩
  | cons u rest ih =>
    obtain ⟨hv, h⟩ := List.forall_mem_cons.1 h
    obtain ⟨t, ht, hs⟩ := ih h
    refine ⟨write v ++ ',' :: t, ?_, .more (.of hv) hs⟩
    rw [writeItems, ht, List.append_assoc, List.cons_append]

/-- The text behind an opening brace. -/
theorem separated_writeMembers {m : String × Json} {rest : List (String × Json)}
    (h : ∀ n ∈ m :: rest, ValueText .standard levels (write n.2) n.2.reread) :
    ∃ t, quoted m.1 ++ ':' :: (write m.2 ++ writeMembers rest) = t ++ ['}'] ∧
      Separated (MemberText .standard (ValueText .standard levels)) t ((m :: rest).map fun n => (n.1, n.2.reread)) := by
  have hmember (n : String × Json) (hn : ValueText .standard levels (write n.2) n.2.reread) :
      MemberText .standard (ValueText .standard levels) (quoted n.1 ++ ':' :: write n.2) (n.1, n.2.reread) := by
    obtain ⟨us, ht, hs⟩ := exists_stringText n.1
    have := MemberText.mk (M := .standard) isBlanks_nil ht hs isBlanks_nil (.of hn)
    rw [String.ofList_toList] at this
    rwa [quoted, List.cons_append, List.append_assoc]
  induction rest generalizing m with
  | nil =>
    refine ⟨quoted m.1 ++ ':' :: write m.2, ?_, .one (hmember m (h m List.mem_cons_self))⟩
    rw [writeMembers, List.append_assoc, List.cons_append]
  | cons n rest ih =>
    obtain ⟨hm, h⟩ := List.forall_mem_cons.1 h
    obtain ⟨t, ht, hs⟩ := ih h
    refine ⟨quoted m.1 ++ ':' :: write m.2 ++ ',' :: t, ?_, .more (hmember m hm) hs⟩
    rw [writeMembers, ht]
    simp only [List.append_assoc, List.cons_append]

/-- The text of any members is one of an object: a repeated name keeps its first place and takes its last value. -/
theorem valueText_writeObject {ms : List (String × Json)}
    (h : ∀ m ∈ ms, ValueText .standard levels (write m.2) m.2.reread) :
    ValueText .standard (levels + 1) (write (.object ms)) (.object (Fields.ofList (ms.map fun m => (m.1, m.2.reread)))) := by
  cases ms with
  | nil => exact ValueTextWith.emptyObject rfl isBlanks_nil
  | cons m rest =>
    obtain ⟨t, ht, hs⟩ := separated_writeMembers h
    rw [write, ht]
    exact ValueTextWith.object rfl hs

/-- **Texts of values**: what is written for a value is a JSON text, and stands for the value as it is read. -/
theorem valueText_write {v : Json} (hw : v.WellFormed) (hl : v.depth ≤ levels) :
    ValueText .standard levels (write v) v.reread := by
  induction v using Json.induct generalizing levels with
  | null => cases levels <;> exact ValueTextWith.null
  | bool b => cases levels <;> cases b <;> first | exact ValueTextWith.true | exact ValueTextWith.false
  | integer i =>
    obtain ⟨n, ht, hn⟩ := i.exists_numeral
    exact ValueText.number ht hn
  | double x =>
    obtain ⟨n, ht, hn⟩ := x.exists_numeral_reread
    exact ValueText.number ht hn
  | string s =>
    obtain ⟨us, ht, hs⟩ := exists_stringText s
    have htext : ValueText .standard levels ('"' :: (s.toList.flatMap escape ++ ['"'])) (.string (String.ofList s.toList)) :=
      .string ht hs
    rwa [String.ofList_toList] at htext
  | array items ih =>
    obtain ⟨levels, rfl⟩ := Nat.exists_eq_add_one.2 (Nat.zero_lt_of_lt hl)
    have hitems : ∀ u ∈ items, ValueText .standard levels (write u) u.reread := fun u hu =>
      ih u hu (wellFormedItems_iff.1 hw u hu) (depthOfItems_le_iff.1 (Nat.le_of_succ_le_succ hl) u hu)
    rw [reread, rereadItems_eq]
    cases items with
    | nil => exact ValueTextWith.emptyArray rfl isBlanks_nil
    | cons u rest =>
      obtain ⟨t, ht, hs⟩ := separated_writeItems hitems
      rw [write, ht]
      exact ValueTextWith.array rfl hs
  | object members ih =>
    obtain ⟨levels, rfl⟩ := Nat.exists_eq_add_one.2 (Nat.zero_lt_of_lt hl)
    have hmembers : ∀ m ∈ members, ValueText .standard levels (write m.2) m.2.reread := fun m hm =>
      ih m hm (wellFormedMembers_iff.1 hw.2 m hm) (depthOfMembers_le_iff.1 (Nat.le_of_succ_le_succ hl) m hm)
    have hdistinct : Fields.Distinct (members.map fun m => (m.1, m.2.reread)) := by
      rw [Fields.Distinct, Fields.names_map]
      exact hw.1
    rw [reread, rereadMembers_eq, ← Fields.ofList_of_distinct hdistinct]
    exact valueText_writeObject hmembers

end

/-- **Reading what was written**: if the levels are enough for a value, its text is read, as the value it comes back as;
otherwise the reader says that it is too deep. -/
theorem readWithin_write_eq {v : Json} (hw : v.WellFormed) (levels : Nat) :
    readWithin levels (symbolsOf (write v)) = if v.depth ≤ levels then .ok v.reread else .error .tooDeep := by
  have hread {levels : Nat} (hl : v.depth ≤ levels) : readWithin levels (symbolsOf (write v)) = .ok v.reread :=
    readWithin_eq_ok_iff.2 ⟨write v, rfl, .of (valueText_write hw hl)⟩
  split
  · rename_i hl
    exact hread hl
  · rename_i hl
    rcases readWithin_limited (Nat.le_max_left levels v.depth) (symbolsOf (write v)) with h | h
    · exact h
    · rw [hread (Nat.le_max_right levels v.depth)] at h
      exact absurd (v.depth_reread ▸ (of_readWithin h).2) hl

/-- Whether the text of a value is read, and as what, with the usual levels. -/
theorem read_text_eq {v : Json} (hw : v.WellFormed) :
    read (Text.symbols v.text.toUTF8) = if v.depth ≤ 127 then .ok v.reread else .error .tooDeep := by
  rw [text, Text.symbols_toUTF8, read, standardLevels, readWithin_write_eq hw]

/-- Members are read from the text of an object that repeats names as well. -/
theorem read_text_object {ms : List (String × Json)} (hw : WellFormedMembers ms) (hl : depthOfMembers ms ≤ 126) :
    read (Text.symbols (Json.object ms).text.toUTF8) =
      .ok (.object (Fields.ofList (ms.map fun m => (m.1, m.2.reread)))) := by
  rw [text, Text.symbols_toUTF8]
  refine readWithin_eq_ok_iff.2 ⟨_, rfl, .of (valueText_writeObject fun m hm => valueText_write ?_ ?_)⟩
  · exact wellFormedMembers_iff.1 hw m hm
  · exact depthOfMembers_le_iff.1 hl m hm

end Chronicle.Json
